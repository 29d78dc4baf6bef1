import Bingos.StepRuns
import Bingos.VfsLookup

set_option autoImplicit false

/-! The mount tree in memory: nodes with an array of children, and the entries
they point to. Names are copied and children appended as in the source, without
a check of the room there is; past it the records stand for the copies made, not
for the memory they overwrite. -/
namespace Bingos.MountMemory
open CStrings PathWalks StepRuns Vfs

structure VfsEntry where
  name : Bytes
  file : Option ℕ

/-- `children` are the words from `children[0]` on; from the tenth on they lie
behind the node. -/
structure Node where
  length : ℕ
  name : Bytes
  data : ℕ
  children : ℕ → ℕ

structure Memory where
  node : ℕ → Node
  entry : ℕ → VfsEntry
  live : Finset ℕ
  root : ℕ

namespace Memory

def setNode (m : Memory) (x : ℕ) (n : Node) : Memory :=
  { m with node := Function.update m.node x n }

def setName (m : Memory) (x : ℕ) (name : Bytes) : Memory :=
  m.setNode x { m.node x with name := name }

def append (m : Memory) (p n : ℕ) : Memory :=
  m.setNode p { m.node p with
    length := (m.node p).length + 1
    children := Function.update (m.node p).children (m.node p).length n }

def newEntry (m : Memory) (e : ℕ) (name : Bytes) : Memory :=
  { m with entry := Function.update m.entry e ⟨name, none⟩, live := insert e m.live }

def setFile (m : Memory) (x : ℕ) (file : Option ℕ) : Memory :=
  { m with
    entry := Function.update m.entry (m.node x).data
      { m.entry (m.node x).data with file := file } }

end Memory

def childList (m : Memory) (x : ℕ) : List ℕ :=
  (List.range (m.node x).length).map (m.node x).children

/-- The loop of `vfs_mount` compares the names of the nodes, -/
def findChild (m : Memory) (x : ℕ) (name : Bytes) : Option ℕ :=
  (childList m x).find? fun y => (m.node y).name = name

/-- that of `vfs_get_mount_point` the names of their entries. -/
def findEntry (m : Memory) (x : ℕ) (name : Bytes) : Option ℕ :=
  (childList m x).find? fun y => (m.entry (m.node y).data).name = name

def fileOf (m : Memory) (x : ℕ) : Option ℕ := (m.entry (m.node x).data).file

section Source
variable (kmalloc : Finset ℕ → ℕ)

def createTreeNode (m : Memory) (data : ℕ) : ℕ × Memory :=
  let n := kmalloc m.live
  (n, { m.setNode n ⟨0, (m.node n).name, data, fun _ => 0⟩ with live := insert n m.live })

def treeNodeInsert (m : Memory) (p : ℕ) (name : Bytes) (data : ℕ) : ℕ × Memory :=
  let r := createTreeNode kmalloc m data
  (r.1, (r.2.setName r.1 name).append p r.1)

def createChild (m : Memory) (node : ℕ) (name : Bytes) : ℕ × Memory :=
  let e := kmalloc m.live
  let r := treeNodeInsert kmalloc (m.newEntry e name) node name e
  (r.1, r.2.setName r.1 (r.2.entry e).name)

def mountLoop (buf : Bytes) (stop : ℕ) : ℕ → ℕ → ℕ → Memory → Option (ℕ × Memory)
  | 0, _, _, _ => none
  | fuel + 1, p, node, m =>
    if stop ≤ p then some (node, m)
    else
      match findChild m node (cstr buf p) with
      | some child => mountLoop buf stop fuel (p + strlen buf p + 1) child m
      | none =>
        let r := createChild kmalloc m node (cstr buf p)
        mountLoop buf stop fuel (p + strlen buf p + 1) r.1 r.2

/-- The node returned, or NULL, and the tree it leaves. -/
def vfsMount (m : Memory) (path : Bytes) (lroot : Option ℕ) : Option (Option ℕ × Memory) :=
  if path.head? ≠ some slash then some (none, m)
  else if path.length = 1 then some (none, m)
  else
    (mountLoop kmalloc ((splitPath path).1 ++ [0]) path.length path.length 1 m.root m).map
      fun r => (some r.1, r.2.setFile r.1 lroot)

def vfsInit (m : Memory) (vfsRoot : ℕ) : Memory :=
  let e := kmalloc m.live
  let n := kmalloc (insert e m.live)
  { node := Function.update m.node n ⟨0, [slash], e, fun _ => 0⟩
    entry := Function.update m.entry e ⟨[slash], some vfsRoot⟩
    live := insert n (insert e m.live)
    root := n }

end Source

def vfsGetMountPoint (m : Memory) (vfsRoot : ℕ) (buf : Bytes) (path depth : ℕ) : MountPoint :=
  searchLoop (findEntry m) (fileOf m) buf (skipStrings buf path depth) (skipStrings buf path depth)
    path m.root ⟨vfsRoot, path, 0⟩

inductive InTree (m : Memory) : ℕ → Prop where
  | root : InTree m m.root
  | child {x i : ℕ} (hx : InTree m x) (hi : i < (m.node x).length) :
      InTree m ((m.node x).children i)

/-- The nodes form a tree, with an entry of its own and of its name for each. -/
structure Sound (m : Memory) (nodes : Finset ℕ) : Prop where
  rooted : Rooted (findChild m) m.root (· ∈ nodes)
  reach : ∀ x ∈ nodes, InTree m x
  live : ∀ x ∈ nodes, x ∈ m.live ∧ (m.node x).data ∈ m.live
  children : ∀ x ∈ nodes, ∀ y ∈ childList m x, y ∈ nodes
  data : ∀ x ∈ nodes, ∀ y ∈ nodes, (m.node x).data = (m.node y).data → x = y
  names : ∀ x ∈ nodes, (m.entry (m.node x).data).name = (m.node x).name
  siblings : ∀ x ∈ nodes, ((childList m x).map fun y => (m.node y).name).Nodup

variable {kmalloc : Finset ℕ → ℕ} {m : Memory} {nodes : Finset ℕ} {x y : ℕ} {c : Bytes}

theorem Sound.mem_iff (h : Sound m nodes) : x ∈ nodes ↔ InTree m x := by
  refine ⟨h.reach x, fun hx => ?_⟩
  induction hx with
  | root => exact h.rooted.root_mem
  | @child y i _ hi ih =>
    exact h.children y ih _ (List.mem_map_of_mem (List.mem_range.mpr hi))

structure Created (m m' : Memory) (x n e : ℕ) (c : Bytes) : Prop where
  self : m'.node n = ⟨0, c, e, fun _ => 0⟩
  parent : m'.node x = ⟨(m.node x).length + 1, (m.node x).name, (m.node x).data,
    Function.update (m.node x).children (m.node x).length n⟩
  others : ∀ y, y ≠ x → y ≠ n → m'.node y = m.node y
  entry : m'.entry e = ⟨c, none⟩
  entries : ∀ d ≠ e, m'.entry d = m.entry d
  live : m'.live = insert n (insert e m.live)
  root : m'.root = m.root
  node_new : n ∉ m.live
  entry_new : e ∉ m.live

theorem createChild_spec (hk : ∀ live, kmalloc live ∉ live) (hx : x ∈ m.live) :
    Created m (createChild kmalloc m x c).2 x (createChild kmalloc m x c).1 (kmalloc m.live) c := by
  have hn : kmalloc (insert (kmalloc m.live) m.live) ∉ insert (kmalloc m.live) m.live := hk _
  rw [Finset.mem_insert, not_or] at hn
  have hxn : x ≠ kmalloc (insert (kmalloc m.live) m.live) := fun heq => hn.2 (heq ▸ hx)
  refine ⟨?_, ?_, fun y hy hyn => ?_, ?_, fun d hd => ?_, rfl, rfl, hn.2, hk _⟩
  · simp [createChild, treeNodeInsert, createTreeNode, Memory.setName, Memory.append,
      Memory.setNode, Memory.newEntry, hxn.symm]
  · simp [createChild, treeNodeInsert, createTreeNode, Memory.setName, Memory.append,
      Memory.setNode, Memory.newEntry, hxn]
  · have hyn' : y ≠ kmalloc (insert (kmalloc m.live) m.live) := hyn
    simp [createChild, treeNodeInsert, createTreeNode, Memory.setName, Memory.append,
      Memory.setNode, Memory.newEntry, hy, hyn']
  · simp [createChild, treeNodeInsert, createTreeNode, Memory.setName, Memory.append,
      Memory.setNode, Memory.newEntry]
  · simp [createChild, treeNodeInsert, createTreeNode, Memory.setName, Memory.append,
      Memory.setNode, Memory.newEntry, hd]

section Created
variable {m' : Memory} {n e : ℕ} (hc : Created m m' x n e c)
include hc

theorem Created.name (hy : y ≠ n) :
    (m'.node y).name = (m.node y).name := by
  by_cases hyx : y = x
  · rw [hyx, hc.parent]
  · rw [hc.others y hyx hy]

theorem Created.data (hy : y ≠ n) :
    (m'.node y).data = (m.node y).data := by
  by_cases hyx : y = x
  · rw [hyx, hc.parent]
  · rw [hc.others y hyx hy]

theorem Created.children_old {i : ℕ} (hi : i < (m.node x).length) :
    (m'.node x).children i = (m.node x).children i := by
  rw [hc.parent]
  exact Function.update_of_ne (Nat.ne_of_lt hi) ..

theorem Created.children_new :
    (m'.node x).children (m.node x).length = n := by
  rw [hc.parent]
  exact Function.update_self ..

theorem Created.length_parent :
    (m'.node x).length = (m.node x).length + 1 := by rw [hc.parent]

theorem Created.childList_parent :
    childList m' x = childList m x ++ [n] := by
  have hold := List.map_congr_left fun i (hi : i ∈ List.range (m.node x).length) =>
    hc.children_old (List.mem_range.mp hi)
  rw [childList, hc.length_parent, List.range_succ, List.map_append, hold, List.map_singleton,
    hc.children_new]
  rfl

theorem Created.childList_others (hyx : y ≠ x) (hy : y ≠ n) :
    childList m' y = childList m y := by
  rw [childList, hc.others y hyx hy]
  rfl

theorem Created.childList_self : childList m' n = [] := by
  rw [childList, hc.self]
  rfl

theorem Created.inTree (hn : ¬ InTree m n) (hy : InTree m y) :
    InTree m' y := by
  induction hy with
  | root =>
    rw [← hc.root]
    exact .root
  | @child y i hy hi ih =>
    have hyn : y ≠ n := fun heq => hn (heq ▸ hy)
    by_cases hyx : y = x
    · subst hyx
      have hchild := InTree.child ih ((Nat.lt_succ_of_lt hi).trans_eq hc.length_parent.symm)
      rwa [hc.children_old hi] at hchild
    · have hlen : i < (m'.node y).length := by
        rw [hc.others y hyx hyn]
        exact hi
      have hchild := InTree.child ih hlen
      rwa [hc.others y hyx hyn] at hchild

theorem Created.inTree_self (hx : InTree m' x) : InTree m' n := by
  have hchild := InTree.child hx ((Nat.lt_succ_self _).trans_eq hc.length_parent.symm)
  rwa [hc.children_new] at hchild

variable (h : Sound m nodes) (hx : x ∈ nodes)
include h

theorem Sound.new_notMem : n ∉ nodes := fun hn => hc.node_new (h.live n hn).1

theorem Sound.ne_new (hy : y ∈ nodes) : y ≠ n := fun heq => h.new_notMem hc (heq ▸ hy)

theorem Sound.find_old (hy : y ∈ nodes) (d : Bytes) :
    ((childList m y).find? fun z => (m'.node z).name = d) = findChild m y d := by
  have hsame : ∀ z ∈ childList m y,
      decide ((m'.node z).name = d) = decide ((m.node z).name = d) := fun z hz => by
    rw [hc.name (h.ne_new hc (h.children y hy z hz))]
  rw [findChild, ← List.head?_filter, ← List.head?_filter, List.filter_congr hsame]

include hx

theorem Sound.findChild_created (hnone : findChild m x c = none) (hy : y ∈ nodes) (d : Bytes) :
    findChild m' y d = if y = x ∧ d = c then some n else findChild m y d := by
  by_cases hyx : y = x
  · subst hyx
    rw [findChild, hc.childList_parent, List.find?_append, h.find_old hc hy]
    by_cases hd : d = c
    · subst hd
      rw [if_pos ⟨rfl, rfl⟩, hnone]
      simp [hc.self]
    · have hdc : ¬ c = d := fun heq => hd heq.symm
      rw [if_neg fun hcd => hd hcd.2]
      simp [hc.self, hdc]
  · rw [if_neg fun hcd => hyx hcd.1, findChild, hc.childList_others hyx (h.ne_new hc hy)]
    exact h.find_old hc hy d

omit hx h in
theorem Created.findChild_self (d : Bytes) : findChild m' n d = none := by
  rw [findChild, hc.childList_self]
  rfl

theorem Sound.created (hnone : findChild m x c = none) : Sound m' (insert n nodes) := by
  have hn := h.new_notMem hc
  have hxn : x ≠ n := h.ne_new hc hx
  have hreach : ∀ y ∈ nodes, InTree m' y := fun y hy =>
    hc.inTree (fun hin => hn (h.mem_iff.mpr hin)) (h.reach y hy)
  have hchildren : ∀ y ∈ nodes, ∀ z ∈ childList m' y, z ∈ nodes ∨ z = n := by
    intro y hy z hz
    by_cases hyx : y = x
    · subst hyx
      rw [hc.childList_parent, List.mem_append, List.mem_singleton] at hz
      exact hz.imp_left (h.children y hy z)
    · rw [hc.childList_others hyx (h.ne_new hc hy)] at hz
      exact Or.inl (h.children y hy z hz)
  have hdata : ∀ y ∈ nodes, (m'.node y).data ≠ e := fun y hy heq => by
    rw [hc.data (h.ne_new hc hy)] at heq
    exact hc.entry_new (heq ▸ (h.live y hy).2)
  refine ⟨?_, fun y hmem => ?_, fun y hmem => ?_, fun y hmem z hz => ?_,
    fun y hmem z hz heq => ?_, fun y hmem => ?_, fun y hmem => ?_⟩
  · have hrooted := h.rooted.insert (fun y hy d => h.findChild_created hc hx hnone hy d)
      hc.findChild_self hn
    rw [hc.root]
    have hiff : (fun y => y ∈ insert n nodes) = fun y => y ∈ nodes ∨ y = n := by
      funext y
      rw [Finset.mem_insert, or_comm]
    rw [hiff]
    exact hrooted
  all_goals rcases Finset.mem_insert.mp hmem with rfl | hy
  · exact hc.inTree_self (hreach x hx)
  · exact hreach y hy
  · rw [hc.self, hc.live]
    simp
  · rw [hc.data (h.ne_new hc hy), hc.live]
    exact ⟨Finset.mem_insert_of_mem (Finset.mem_insert_of_mem (h.live y hy).1),
      Finset.mem_insert_of_mem (Finset.mem_insert_of_mem (h.live y hy).2)⟩
  · rw [hc.childList_self] at hz
    cases hz
  · rw [Finset.mem_insert]
    exact (hchildren y hy z hz).symm
  · rcases Finset.mem_insert.mp hz with rfl | hz
    · rfl
    · rw [hc.self] at heq
      exact absurd heq.symm (hdata z hz)
  · rcases Finset.mem_insert.mp hz with rfl | hz
    · rw [hc.self] at heq
      exact absurd heq (hdata y hy)
    · rw [hc.data (h.ne_new hc hy), hc.data (h.ne_new hc hz)] at heq
      exact h.data y hy z hz heq
  · rw [hc.self, hc.entry]
  · rw [hc.entries _ (hdata y hy), hc.data (h.ne_new hc hy), hc.name (h.ne_new hc hy)]
    exact h.names y hy
  · rw [hc.childList_self]
    exact List.nodup_nil
  · have hold : ((childList m y).map fun z => (m'.node z).name) =
        (childList m y).map fun z => (m.node z).name :=
      List.map_congr_left fun z hz => hc.name (h.ne_new hc (h.children y hy z hz))
    by_cases hyx : y = x
    · subst hyx
      rw [hc.childList_parent, List.map_append, hold, List.map_singleton, hc.self,
        ← List.concat_eq_append]
      refine (h.siblings y hy).concat fun hmem => ?_
      obtain ⟨z, hz, hname⟩ := List.mem_map.mp hmem
      exact List.find?_eq_none.mp hnone z hz (by simpa using hname)
    · rw [hc.childList_others hyx (h.ne_new hc hy), hold]
      exact h.siblings y hy

end Created

end Bingos.MountMemory
