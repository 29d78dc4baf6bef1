import Bingos.MountMemory
import Bingos.PointerChains

set_option autoImplicit false

/-! Mount calls on the tree in memory: what they leave at every path, how far
the room in the nodes goes, and which mount point a lookup finds. -/
namespace Bingos.MountMemory
open CStrings PathWalks PointerChains StepRuns Vfs

variable {kmalloc : Finset ℕ → ℕ} {m : Memory} {nodes : Finset ℕ} {x : ℕ} {ps : List Bytes}

def grow (kmalloc : Finset ℕ → ℕ) : Memory → ℕ → List Bytes → ℕ × Memory
  | m, x, [] => (x, m)
  | m, x, c :: cs =>
    match findChild m x c with
    | some y => grow kmalloc m y cs
    | none => grow kmalloc (createChild kmalloc m x c).2 (createChild kmalloc m x c).1 cs

def table (m : Memory) (ds : List Bytes) : Option (Option ℕ) :=
  (walk (findChild m) m.root ds).map (fileOf m)

theorem table_created {m' : Memory} {n e : ℕ} {c : Bytes} (h : Sound m nodes)
    (hc : Created m m' x n e c) (hx : walk (findChild m) m.root ps = some x)
    (hnone : findChild m x c = none) (ds : List Bytes) :
    table m' ds = if ds = ps ++ [c] then some none else table m ds := by
  have hxn := h.rooted.walk_mem hx
  have hwalk := h.rooted.walk_insert (fun y hy d => h.findChild_created hc hxn hnone hy d)
    hc.findChild_self hx hnone ds
  rw [table, hc.root, hwalk]
  split_ifs
  · rw [Option.map_some, fileOf, hc.self, hc.entry]
  · refine Option.map_congr fun y hy => ?_
    have hyn := h.rooted.walk_mem hy
    have hdata : (m'.node y).data ≠ e := fun heq => by
      rw [hc.data (h.ne_new hc hyn)] at heq
      exact hc.entry_new (heq ▸ (h.live y hyn).2)
    rw [fileOf, hc.entries _ hdata, hc.data (h.ne_new hc hyn), fileOf]

theorem Sound.grow (hk : ∀ live, kmalloc live ∉ live) (h : Sound m nodes)
    (hx : walk (findChild m) m.root ps = some x) (cs : List Bytes) :
    ∃ nodes', Sound (grow kmalloc m x cs).2 nodes' ∧
      walk (findChild (grow kmalloc m x cs).2) (grow kmalloc m x cs).2.root (ps ++ cs) =
        some (grow kmalloc m x cs).1 ∧
      ∀ ds, table (grow kmalloc m x cs).2 ds =
        if (table m ds).isSome then table m ds else if ds <+: ps ++ cs then some none else none := by
  induction cs generalizing m nodes x ps with
  | nil =>
    refine ⟨nodes, h, by rw [List.append_nil]; exact hx, fun ds => ?_⟩
    change table m ds = _
    split_ifs with hsome hpre
    · rfl
    · rw [List.append_nil] at hpre
      rw [table, Option.isSome_map] at hsome
      exact absurd (walk_isSome hx hpre) hsome
    · exact Option.not_isSome_iff_eq_none.mp hsome
  | cons c cs ih =>
    have happ : ps ++ c :: cs = (ps ++ [c]) ++ cs := by simp
    rw [happ, MountMemory.grow]
    cases hfind : findChild m x c with
    | some y =>
      refine ih h ?_
      rw [walk_snoc, hx]
      exact hfind
    | none =>
      have hxn := h.rooted.walk_mem hx
      have hc := createChild_spec (c := c) hk (h.live x hxn).1
      have hwalk := h.rooted.walk_insert (fun y hy d => h.findChild_created hc hxn hfind hy d)
        hc.findChild_self hx hfind
      have hnew : walk (findChild (createChild kmalloc m x c).2) (createChild kmalloc m x c).2.root
          (ps ++ [c]) = some (createChild kmalloc m x c).1 := by
        rw [hc.root, hwalk, if_pos rfl]
      obtain ⟨nodes', hs, hend, htable⟩ := ih (h.created hc hxn hfind) hnew
      refine ⟨nodes', hs, hend, fun ds => ?_⟩
      rw [htable, table_created h hc hx hfind]
      by_cases hds : ds = ps ++ [c]
      · -- The new node was not there before.
        have hold : table m ds = none := by
          rw [table, hds, walk_snoc, hx, Option.bind_some, hfind]
          rfl
        have hpre : ds <+: ps ++ [c] ++ cs := hds ▸ List.prefix_append _ _
        rw [if_pos hds, hold, if_pos hpre]
        rfl
      · rw [if_neg hds]

theorem table_setFile (h : Sound m nodes) (hx : walk (findChild m) m.root ps = some x)
    (file : Option ℕ) (ds : List Bytes) :
    table (m.setFile x file) ds = if ds = ps then some file else table m ds := by
  have hfile : ∀ y ∈ nodes, fileOf (m.setFile x file) y = if y = x then file else fileOf m y := by
    intro y hy
    by_cases hyx : y = x
    · subst hyx
      simp [fileOf, Memory.setFile]
    · have hdata : (m.node y).data ≠ (m.node x).data := fun heq =>
        hyx (h.data y hy x (h.rooted.walk_mem hx) heq)
      simp [fileOf, Memory.setFile, hdata, hyx]
  change (walk (findChild m) m.root ds).map (fileOf (m.setFile x file)) = _
  cases hw : walk (findChild m) m.root ds with
  | none =>
    have hne : ds ≠ ps := fun heq => by
      rw [heq, hx] at hw
      cases hw
    rw [if_neg hne, table, hw]
    rfl
  | some y =>
    rw [table, hw, Option.map_some, hfile y (h.rooted.walk_mem hw), Option.map_some]
    by_cases hyx : y = x
    · subst hyx
      rw [if_pos rfl, if_pos (h.rooted.walk_injective hw hx)]
    · have hne : ds ≠ ps := fun heq => by
        rw [heq, hx] at hw
        exact hyx (Option.some.inj hw).symm
      rw [if_neg hyx, if_neg hne]

theorem inTree_setFile {file : Option ℕ} {y : ℕ} (h : InTree m y) :
    InTree (m.setFile x file) y := by
  induction h with
  | root => exact InTree.root
  | child hx hi ih => exact InTree.child ih hi

theorem Sound.setFile (h : Sound m nodes) (x : ℕ) (file : Option ℕ) :
    Sound (m.setFile x file) nodes := by
  refine ⟨h.rooted, fun y hy => inTree_setFile (h.reach y hy), h.live, h.children, h.data,
    fun y hy => ?_, h.siblings⟩
  refine Eq.trans ?_ (h.names y hy)
  by_cases hd : (m.node y).data = (m.node x).data
  · simp [Memory.setFile, hd]
  · simp [Memory.setFile, hd]

theorem mountLoop_eq {buf s : Bytes} (m : Memory) (x : ℕ) {p fuel : ℕ} (hs : 0 ∉ s)
    (hbuf : buf.drop p = (splitPath s).1 ++ [0]) (hfuel : s.length < fuel) :
    mountLoop kmalloc buf (p + s.length) fuel p x m = some (grow kmalloc m x (components s)) := by
  refine components_induction
    (fun fuel q xs => ∀ x m, mountLoop kmalloc buf (p + s.length) fuel q x m =
      some (grow kmalloc m x xs))
    (fun fuel q hq hpos x m => ?_) (fun fuel q c cs hq hc hnext x m => ?_) hs hbuf rfl hfuel x m
  · obtain ⟨fuel, rfl⟩ := Nat.exists_eq_succ_of_ne_zero (Nat.pos_iff_ne_zero.mp hpos)
    rw [mountLoop, if_pos hq, grow]
  · have hlen : strlen buf q = c.length := by rw [strlen, hc]
    rw [mountLoop, if_neg (Nat.not_le.mpr hq), hc, hlen, grow]
    cases findChild m x c with
    | some y => exact hnext y m
    | none => exact hnext _ _

/-- Every call returns; those that are refused leave the tree as it is. -/
theorem vfsMount_eq (m : Memory) (call : MountCall) :
    vfsMount kmalloc m call.path call.lroot =
      match call.target with
      | none => some (none, m)
      | some cs => some (some (grow kmalloc m m.root cs).1,
          (grow kmalloc m m.root cs).2.setFile (grow kmalloc m m.root cs).1 call.lroot) := by
  cases htarget : call.target with
  | none => exact refused_of_target htarget _ _
  | some cs =>
    obtain ⟨s, hs, hne, hs0, rfl⟩ := target_eq_some htarget
    have hlen : (slash :: s).length = 1 + s.length := by rw [List.length_cons, Nat.add_comm]
    have hpos := List.length_pos_iff.mpr hne
    rw [vfsMount, hs, if_neg (by simp), if_neg (by omega), hlen, splitPath_slash,
      mountLoop_eq m m.root hs0 (by simp) (by omega), Option.map_some]

def mount (kmalloc : Finset ℕ → ℕ) (m : Memory) (call : MountCall) : Memory :=
  match call.target with
  | none => m
  | some cs => (grow kmalloc m m.root cs).2.setFile (grow kmalloc m m.root cs).1 call.lroot

def Step (kmalloc : Finset ℕ → ℕ) (m : Memory) (call : MountCall) (m' : Memory) : Prop :=
  ∃ ret, vfsMount kmalloc m call.path call.lroot = some (ret, m')

theorem step_iff {call : MountCall} {m' : Memory} :
    Step kmalloc m call m' ↔ m' = mount kmalloc m call := by
  rw [Step, vfsMount_eq, mount]
  cases call.target with
  | none => simp [eq_comm]
  | some cs => simp [eq_comm]

theorem Sound.mount (hk : ∀ live, kmalloc live ∉ live) (h : Sound m nodes) (call : MountCall) :
    (∃ nodes', Sound (mount kmalloc m call) nodes') ∧
      ∀ cs, call.target = some cs → ∀ ds, table (MountMemory.mount kmalloc m call) ds =
        if ds = cs then some call.lroot
        else if (table m ds).isSome then table m ds else if ds <+: cs then some none else none := by
  rw [MountMemory.mount]
  cases htarget : call.target with
  | none => exact ⟨⟨nodes, h⟩, nofun⟩
  | some cs =>
    have hroot : walk (findChild m) m.root [] = some m.root := rfl
    obtain ⟨nodes', hs, hend, htable⟩ := h.grow hk hroot cs
    refine ⟨⟨nodes', hs.setFile _ _⟩, fun cs' hcs' ds => ?_⟩
    obtain rfl := Option.some.inj hcs'
    rw [table_setFile hs hend, htable]
    rfl

structure Tabulates (m : Memory) (vfsRoot : ℕ) (calls : List MountCall) : Prop where
  file : ∀ ds, (table m ds).join = mounted vfsRoot calls ds
  node : ∀ ds, (table m ds).isSome = known calls ds

variable {calls : List MountCall} {vfsRoot : ℕ}

theorem Tabulates.mount (hk : ∀ live, kmalloc live ∉ live)
    (h : Sound m nodes) (ht : Tabulates m vfsRoot calls) (call : MountCall) :
    Tabulates (mount kmalloc m call) vfsRoot (calls ++ [call]) := by
  have htable := (h.mount hk call).2
  refine ⟨fun ds => ?_, fun ds => Bool.eq_iff_iff.mpr ?_⟩
  · rw [mounted_snoc, ← ht.file]
    cases htarget : call.target with
    | none =>
      rw [MountMemory.mount, htarget]
      rfl
    | some cs =>
      rw [htable cs htarget]
      by_cases hds : ds = cs
      · rw [if_pos hds, if_pos (congrArg some hds.symm)]
        rfl
      · rw [if_neg hds, if_neg fun heq => hds (Option.some.inj heq).symm]
        cases table m ds with
        | none => split_ifs <;> rfl
        | some file => rfl
  · rw [known_snoc, ← ht.node]
    cases htarget : call.target with
    | none =>
      rw [MountMemory.mount, htarget]
      simp
    | some cs =>
      rw [htable cs htarget]
      by_cases hds : ds = cs
      · simp [hds]
      · rw [if_neg hds]
        cases table m ds with
        | none => by_cases hpre : ds <+: cs <;> simp [hpre]
        | some file => simp

theorem findEntry_eq (h : Sound m nodes) (hx : x ∈ nodes) (c : Bytes) :
    findEntry m x c = findChild m x c := by
  have hsame : ∀ y ∈ childList m x, decide ((m.entry (m.node y).data).name = c) =
      decide ((m.node y).name = c) := fun y hy => by rw [h.names y (h.children x hx y hy)]
  rw [findEntry, findChild, ← List.head?_filter, ← List.head?_filter, List.filter_congr hsame]

theorem Tabulates.charts (h : Sound m nodes) (ht : Tabulates m vfsRoot calls) :
    Charts (findEntry m) (fileOf m) m.root (mounted vfsRoot calls) (known calls) := by
  have hwalk := h.rooted.walk_congr fun x hx c => findEntry_eq h hx c
  refine ⟨fun ds => ?_, fun ds => ?_⟩
  · rw [hwalk, ← ht.file, table]
    cases walk (findChild m) m.root ds <;> rfl
  · rw [hwalk, ← ht.node, table, Option.isSome_map]

theorem sound_vfsInit (kmalloc : Finset ℕ → ℕ) (m : Memory) (vfsRoot : ℕ) :
    Sound (vfsInit kmalloc m vfsRoot) {(vfsInit kmalloc m vfsRoot).root} ∧
      Tabulates (vfsInit kmalloc m vfsRoot) vfsRoot [] := by
  have hself : (vfsInit kmalloc m vfsRoot).node (vfsInit kmalloc m vfsRoot).root =
      ⟨0, [slash], kmalloc m.live, fun _ => 0⟩ := Function.update_self ..
  have hentry : (vfsInit kmalloc m vfsRoot).entry (kmalloc m.live) = ⟨[slash], some vfsRoot⟩ :=
    Function.update_self ..
  have hleaf : childList (vfsInit kmalloc m vfsRoot) (vfsInit kmalloc m vfsRoot).root = [] := by
    rw [childList, hself]
    rfl
  have hnone : ∀ c, findChild (vfsInit kmalloc m vfsRoot) (vfsInit kmalloc m vfsRoot).root c =
      none := fun c => by rw [findChild, hleaf]; rfl
  constructor
  · refine ⟨⟨Finset.mem_singleton_self _, ?_, ?_, ?_⟩, ?_, ?_, ?_, ?_, ?_, ?_⟩
    all_goals simp only [Finset.mem_singleton]
    · rintro x c y rfl hy
      rw [hnone] at hy
      cases hy
    · rintro x c rfl hy
      rw [hnone] at hy
      cases hy
    · rintro x y c d z rfl rfl hz
      rw [hnone] at hz
      cases hz
    · rintro x rfl
      exact .root
    · rintro x rfl
      rw [hself]
      exact ⟨Finset.mem_insert_self _ _,
        Finset.mem_insert_of_mem (Finset.mem_insert_self _ _)⟩
    · rintro x rfl y hy
      rw [hleaf] at hy
      cases hy
    · rintro x rfl y rfl _
      rfl
    · rintro x rfl
      rw [hself, hentry]
    · rintro x rfl
      rw [hleaf]
      exact List.nodup_nil
  · have htable : ∀ ds, table (vfsInit kmalloc m vfsRoot) ds =
        if ds = [] then some (some vfsRoot) else none := by
      intro ds
      cases ds with
      | nil =>
        change some (fileOf _ _) = _
        rw [fileOf, hself, hentry, if_pos rfl]
      | cons c ds =>
        rw [table, walk, hnone, if_neg (List.cons_ne_nil c ds)]
        rfl
    refine ⟨fun ds => ?_, fun ds => ?_⟩ <;> rw [htable] <;> cases ds <;> rfl

/-- Every node of the tree is allocated, its children are within its array, and
both copies of its name are within their buffers. -/
def Capacity (m : Memory) : Prop :=
  ∀ x, InTree m x → x ∈ m.live ∧ (m.node x).length ≤ maxTreeChildren ∧
    (m.node x).name.length < entryNameSize ∧
    (m.entry (m.node x).data).name.length < entryNameSize

/-- A mount from the node `x` on needs no child and no name beyond the limits. -/
def hasRoom (m : Memory) : ℕ → List Bytes → Bool
  | _, [] => true
  | x, c :: cs =>
    match findChild m x c with
    | some y => hasRoom m y cs
    | none => (m.node x).length < maxTreeChildren && (c :: cs).all (·.length < entryNameSize)

def Fits (m : Memory) (call : MountCall) : Prop :=
  ∀ cs, call.target = some cs → hasRoom m m.root cs = true

theorem Sound.capacity_iff (h : Sound m nodes) :
    Capacity m ↔ ∀ x ∈ nodes, (m.node x).length ≤ maxTreeChildren ∧
      (m.node x).name.length < entryNameSize := by
  refine ⟨fun hcap x hx => ?_, fun hroom x hx => ?_⟩
  · obtain ⟨-, hlen, hname, -⟩ := hcap x (h.reach x hx)
    exact ⟨hlen, hname⟩
  · have hmem := h.mem_iff.mpr hx
    rw [h.names x hmem]
    obtain ⟨hlen, hname⟩ := hroom x hmem
    exact ⟨(h.live x hmem).1, hlen, hname, hname⟩

section Room
variable {m' : Memory} {n e : ℕ} {c : Bytes}

theorem capacity_created (h : Sound m nodes) (hc : Created m m' x n e c) (hx : x ∈ nodes)
    (hnone : findChild m x c = none) :
    Capacity m' ↔ Capacity m ∧ (m.node x).length < maxTreeChildren ∧ c.length < entryNameSize := by
  rw [(h.created hc hx hnone).capacity_iff, h.capacity_iff]
  have hlen : ∀ y ∈ nodes, (m.node y).length ≤ (m'.node y).length := by
    intro y hy
    by_cases hyx : y = x
    · rw [hyx, hc.length_parent]
      exact Nat.le_succ _
    · rw [hc.others y hyx (h.ne_new hc hy)]
  refine ⟨fun hroom => ⟨fun y hy => ?_, ?_, ?_⟩, fun ⟨hroom, hx', hc'⟩ y hy => ?_⟩
  · obtain ⟨hy', hname⟩ := hroom y (Finset.mem_insert_of_mem hy)
    rw [hc.name (h.ne_new hc hy)] at hname
    exact ⟨(hlen y hy).trans hy', hname⟩
  · obtain ⟨hx', -⟩ := hroom x (Finset.mem_insert_of_mem hx)
    rwa [hc.length_parent] at hx'
  · obtain ⟨-, hn⟩ := hroom n (Finset.mem_insert_self n nodes)
    rwa [hc.self] at hn
  · rcases Finset.mem_insert.mp hy with rfl | hy
    · rw [hc.self]
      exact ⟨Nat.zero_le _, hc'⟩
    · rw [hc.name (h.ne_new hc hy)]
      refine ⟨?_, (hroom y hy).2⟩
      by_cases hyx : y = x
      · rw [hyx, hc.length_parent]
        exact hx'
      · rw [hc.others y hyx (h.ne_new hc hy)]
        exact (hroom y hy).1

theorem hasRoom_leaf (hleaf : childList m x = []) (hlen : (m.node x).length < maxTreeChildren)
    (cs : List Bytes) : hasRoom m x cs = cs.all (·.length < entryNameSize) := by
  cases cs with
  | nil => rfl
  | cons c cs =>
    have hnone : findChild m x c = none := by
      rw [findChild, hleaf]
      rfl
    rw [hasRoom, hnone]
    simp [hlen]

theorem capacity_grow (hk : ∀ live, kmalloc live ∉ live) (h : Sound m nodes) (hx : x ∈ nodes)
    (cs : List Bytes) :
    Capacity (grow kmalloc m x cs).2 ↔ Capacity m ∧ hasRoom m x cs = true := by
  induction cs generalizing m nodes x with
  | nil => simp [grow, hasRoom]
  | cons c cs ih =>
    rw [grow, hasRoom]
    cases hfind : findChild m x c with
    | some y => exact ih h (h.rooted.closed hx hfind)
    | none =>
      have hc := createChild_spec (c := c) hk (h.live x hx).1
      have hlen : ((createChild kmalloc m x c).2.node (createChild kmalloc m x c).1).length <
          maxTreeChildren := by
        rw [hc.self]
        exact (by decide : 0 < maxTreeChildren)
      refine (ih (h.created hc hx hfind) (Finset.mem_insert_self _ _)).trans ?_
      rw [capacity_created h hc hx hfind, hasRoom_leaf hc.childList_self hlen]
      simp [and_assoc]

end Room

theorem capacity_setFile (h : Sound m nodes) (x : ℕ) (file : Option ℕ) :
    Capacity (m.setFile x file) ↔ Capacity m := by
  rw [(h.setFile x file).capacity_iff, h.capacity_iff]
  rfl

theorem capacity_mount (hk : ∀ live, kmalloc live ∉ live) (h : Sound m nodes) (hcap : Capacity m)
    (call : MountCall) : Capacity (mount kmalloc m call) ↔ Fits m call := by
  rw [mount, Fits]
  cases htarget : call.target with
  | none => exact iff_of_true hcap nofun
  | some cs =>
    have hroot : walk (findChild m) m.root [] = some m.root := rfl
    obtain ⟨nodes', hs, -, -⟩ := h.grow hk hroot cs
    refine ((capacity_setFile hs _ _).trans (capacity_grow hk h h.rooted.root_mem cs)).trans ?_
    simp [hcap]

def Kept (vfsRoot : ℕ) (calls : List MountCall) (m : Memory) : Prop :=
  (∃ nodes, Sound m nodes) ∧ Tabulates m vfsRoot calls ∧ Capacity m

theorem kept_of_run {m₀ : Memory} (hk : ∀ live, kmalloc live ∉ live)
    (h : Reach (Guarded Fits (Step kmalloc)) (vfsInit kmalloc m₀ vfsRoot) calls m) :
    Kept vfsRoot calls m := by
  refine h.invariant (Kept vfsRoot) ?_ ?_
  · obtain ⟨hs, ht⟩ := sound_vfsInit kmalloc m₀ vfsRoot
    refine ⟨⟨_, hs⟩, ht, hs.capacity_iff.mpr fun x hx => ?_⟩
    obtain rfl := Finset.mem_singleton.mp hx
    have hself : (vfsInit kmalloc m₀ vfsRoot).node (vfsInit kmalloc m₀ vfsRoot).root =
        ⟨0, [slash], kmalloc m₀.live, fun _ => 0⟩ := Function.update_self ..
    rw [hself]
    exact ⟨Nat.zero_le _, (by decide : 1 < entryNameSize)⟩
  · rintro calls m call m' - ⟨⟨nodes, hs⟩, ht, hcap⟩ ⟨hfits, hstep⟩
    obtain rfl := step_iff.mp hstep
    exact ⟨(hs.mount hk call).1, ht.mount hk hs call, (capacity_mount hk hs hcap call).mpr hfits⟩

/-- As long as every call stays within the limits the tree does, and a call
leaves it there exactly if it stays within them itself. -/
theorem mount_capacity_iff {m₀ : Memory} {vfsRoot : ℕ} {calls : List MountCall}
    (hk : ∀ live, kmalloc live ∉ live)
    (h : Reach (Guarded Fits (Step kmalloc)) (vfsInit kmalloc m₀ vfsRoot) calls m) :
    Capacity m ∧ ∀ call : MountCall, ∃ ret m',
      vfsMount kmalloc m call.path call.lroot = some (ret, m') ∧ (Capacity m' ↔ Fits m call) := by
  obtain ⟨⟨nodes, hs⟩, -, hcap⟩ := kept_of_run hk h
  refine ⟨hcap, fun call => ?_⟩
  obtain ⟨ret, hret⟩ := step_iff.mpr (rfl : mount kmalloc m call = _)
  exact ⟨ret, _, hret, capacity_mount hk hs hcap call⟩

def bootTree : Memory :=
  vfsInit firstAbove ⟨fun _ => ⟨0, [], 0, fun _ => 0⟩, fun _ => ⟨[], none⟩, ∅, 0⟩ 1

theorem fits_mountBin : Fits bootTree mountBin := by
  intro cs hcs
  have htarget : mountBin.target = some [[98, 105, 110]] := by decide
  obtain rfl := Option.some.inj (htarget.symm.trans hcs)
  decide +kernel

theorem reach_mountBin :
    Reach (Guarded Fits (Step firstAbove)) bootTree [mountBin] (mount firstAbove bootTree mountBin) :=
  .next .start ⟨fits_mountBin, step_iff.mpr rfl⟩

theorem mount_capacity_iff_bin : Capacity (mount firstAbove bootTree mountBin) :=
  (mount_capacity_iff firstAbove_notMem reach_mountBin).1

def mountLetter (i : Fin 11) : MountCall :=
  ⟨[slash, 97 + UInt8.ofNat i], some 2, by revert i; decide⟩

theorem reach_mount (kmalloc : Finset ℕ → ℕ) (m : Memory) (calls : List MountCall) :
    Reach (Step kmalloc) m calls (calls.foldl (mount kmalloc) m) := by
  induction calls using List.reverseRecOn with
  | nil => exact .start
  | append_singleton calls call ih =>
    rw [List.foldl_append]
    exact .next ih (step_iff.mpr rfl)

/-- The eleventh directory under the root is written behind its array. -/
theorem eleventh_child_mounted :
    ∃ m, Reach (Step firstAbove) bootTree ((List.finRange 11).map mountLetter) m ∧
      (m.node m.root).length = 11 ∧ ¬ Capacity m := by
  have hlen : ((((List.finRange 11).map mountLetter).foldl (mount firstAbove) bootTree).node
      (((List.finRange 11).map mountLetter).foldl (mount firstAbove) bootTree).root).length = 11 := by
    decide +kernel
  refine ⟨_, reach_mount firstAbove bootTree _, hlen, fun hcap => ?_⟩
  have hle := (hcap _ .root).2.1
  rw [hlen] at hle
  exact absurd hle (by decide)

/-- A lookup finds the node last mounted at the longest mounted prefix of its
path, and goes on with the component behind that prefix. -/
theorem mount_point_longest {m₀ : Memory} {vfsRoot : ℕ} {calls : List MountCall}
    (hk : ∀ live, kmalloc live ∉ live)
    (h : Reach (Guarded Fits (Step kmalloc)) (vfsInit kmalloc m₀ vfsRoot) calls m) :
    (∀ x, InTree m x → ((childList m x).map fun y => (m.node y).name).Nodup) ∧
      ∀ (cs : List Bytes) (beyond : Bytes), (∀ c ∈ cs, Component c) →
        ∃ k ≤ cs.length, ∃ node, mounted vfsRoot calls (cs.take k) = some node ∧
          (∀ j, k < j → j ≤ cs.length → mounted vfsRoot calls (cs.take j) = none) ∧
          (vfsGetMountPoint m vfsRoot ((splitPath (absolute cs)).1 ++ 0 :: beyond) 1
            (splitPath (absolute cs)).2).last = node ∧
          (vfsGetMountPoint m vfsRoot ((splitPath (absolute cs)).1 ++ 0 :: beyond) 1
            (splitPath (absolute cs)).2).mountPath = offset cs k ∧
          ∀ hlt : k < cs.length,
            cstr ((splitPath (absolute cs)).1 ++ 0 :: beyond) (offset cs k) = cs[k] := by
  obtain ⟨⟨nodes, hs⟩, ht, -⟩ := kept_of_run hk h
  refine ⟨fun x hx => hs.siblings x (hs.mem_iff.mpr hx), fun cs beyond hcs => ?_⟩
  have hnul := nulFree_of_components hcs
  obtain ⟨hbuf, hcount⟩ := splitPath_absolute (slashFree_of_components hcs) beyond
  have hroot := mounted_root vfsRoot calls
  have hpoint := searchLoop_path (ht.charts hs) hnul beyond hroot
  obtain ⟨node, hnode⟩ := Option.isSome_iff_exists.mp
    (mountedDepth_spec (T := mounted vfsRoot calls) cs (by rw [hroot]; rfl))
  rw [hnode, Option.getD_some] at hpoint
  refine ⟨mountedDepth (mounted vfsRoot calls) cs cs.length, mountedDepth_le cs _, node, hnode,
    fun j hj hle => ?_, ?_, ?_, fun hlt => ?_⟩
  · have hno := Nat.findGreatest_is_greatest hj hle
    simpa using hno
  · rw [hbuf, hcount, vfsGetMountPoint, hpoint]
  · rw [hbuf, hcount, vfsGetMountPoint, hpoint]
  · rw [hbuf]
    exact cstr_offset hnul hlt

theorem mount_point_longest_bin :
    ∃ k ≤ 2, ∃ node, mounted 1 [mountBin] ([[98, 105, 110], [97]].take k) = some node ∧
      (vfsGetMountPoint (mount firstAbove bootTree mountBin) 1
        ((splitPath (absolute [[98, 105, 110], [97]])).1 ++ [0]) 1
        (splitPath (absolute [[98, 105, 110], [97]])).2).last = node := by
  obtain ⟨k, hk, node, hnode, -, hlast, -⟩ :=
    (mount_point_longest firstAbove_notMem reach_mountBin).2 [[98, 105, 110], [97]] [] fun c hc => by
      fin_cases hc <;> exact ⟨by decide, by decide, by decide⟩
  exact ⟨k, hk, node, hnode, hlast⟩

end Bingos.MountMemory
