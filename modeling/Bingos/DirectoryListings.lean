import Bingos.DescriptorTable
import Bingos.InitrdModel
import Bingos.VfsMounts

set_option autoImplicit false

/-! Listing the root directory, the devices and the ramdisk: the three `readdir`
operations with their different checks of the index, and the loop of a program
that calls `readdir` until it returns NULL. -/
namespace Bingos.Listings
open MachineWords CStrings
open Vfs (Dirent)
open DescriptorTable (Process nrOpen sysReaddir validated)

/-- The result of a `readdir`; `outside` is the use of an element behind the last
one of the directory. -/
inductive Listing where
  | null
  | entry (e : Dirent)
  | outside (index : ℕ)
  deriving DecidableEq

structure DevNode where
  name : Bytes
  inode : ℕ
  deriving DecidableEq

structure Devfs where
  devs : List DevNode
  nrDevMax : ℕ

def devfsInit : Devfs := ⟨[], 32⟩

def devfsRegister (d : Devfs) (target : DevNode) : ℤ × Devfs :=
  if d.nrDevMax ≤ d.devs.length then (-1, d) else (0, { d with devs := d.devs ++ [target] })

def registerAll (targets : List DevNode) : Devfs :=
  targets.foldl (fun d target => (devfsRegister d target).2) devfsInit

/-- The check against `count - 1` is an unsigned comparison. -/
def arrayReaddir (nodes : List Dirent) (index : ℕ) : Listing :=
  if sub32 nodes.length 1 < index then .null
  else match nodes[index]? with
    | some e => .entry e
    | none => .outside index

def devfsEntries (d : Devfs) : List Dirent := d.devs.map fun n => ⟨n.inode, n.name⟩

def devfsReaddir (d : Devfs) (index : ℕ) : Listing := arrayReaddir (devfsEntries d) index

def devfsFinddir (d : Devfs) (name : Bytes) : Option DevNode :=
  d.devs.find? fun n => name = n.name

def initrdEntries (r : Initrd.Ramdisk) : List Dirent := r.rootNodes.map fun n => ⟨n.inode, n.name⟩

def initrdReaddir (r : Initrd.Ramdisk) (index : ℕ) : Listing := arrayReaddir (initrdEntries r) index

/-- `tmp_dir.d_ino` is never set. -/
def rootEntries (t : Vfs.TreeNode) : List Dirent := t.children.map fun c => ⟨0, c.name⟩

def rootReaddir (t : Vfs.TreeNode) (index : ℕ) : Listing :=
  if index = t.children.length then .null
  else match (rootEntries t)[index]? with
    | some e => .entry e
    | none => .outside index

inductive Directory where
  | root (t : Vfs.TreeNode)
  | devfs (d : Devfs)
  | ramdisk (r : Initrd.Ramdisk)

namespace Directory

def entries : Directory → List Dirent
  | .root t => rootEntries t
  | .devfs d => devfsEntries d
  | .ramdisk r => initrdEntries r

def readdir : Directory → ℕ → Listing
  | .root t => rootReaddir t
  | .devfs d => devfsReaddir d
  | .ramdisk r => initrdReaddir r

def finds : Directory → Bytes → Bool
  | .root t, name => ((t.child name).bind Vfs.TreeNode.file).isSome
  | .devfs d, name => (devfsFinddir d name).isSome
  | .ramdisk r, name => (Initrd.initrdFinddir r name).isSome

def expected (d : Directory) (index : ℕ) : Listing :=
  match d.entries[index]? with
  | some e => .entry e
  | none => .null

/-- The directories there are: the root after any mounts, the devices after any
registrations, and any ramdisk whose number of files is an `int`. -/
def Built : Directory → Prop
  | .root t => ∃ vfsRoot ms, Vfs.mountAll vfsRoot ms = some t
  | .devfs d => ∃ targets, d = registerAll targets
  | .ramdisk r => r.rootNodes.length < 2 ^ 31

def Bounded : Directory → ℕ → Prop
  | .root t, index => index ≤ t.children.length
  | .devfs d, _ => d.devs ≠ []
  | .ramdisk r, _ => r.rootNodes ≠ []

/-- The directories whose listing has every name once and only names that are found. -/
def Distinct : Directory → Prop
  | .root t => ∀ c ∈ t.children, c.file.isSome
  | .devfs d => d.devs ≠ [] ∧ (d.devs.map DevNode.name).Nodup
  | .ramdisk r => r.rootNodes ≠ [] ∧ (r.rootNodes.map Initrd.Node.name).Nodup

end Directory

/-- The operations behind open directories, as far as `sys_readdir` uses them. -/
def directoryVfs : DescriptorTable.Vfs Directory where
  read _ _ _ := 0
  write _ _ _ := 0
  readdir d index := d.readdir index ≠ .null
  close _ := 0

/-- The `readdir` of the C library on a stream at entry `current`; `none` is a use
of an element the directory does not have. -/
def libcReaddir (p : Process Directory) (fd : BitVec 32) (current : ℕ) : Option (Option Dirent) :=
  match (sysReaddir directoryVfs p fd current).1 with
  | .accepted d value =>
    if value = 0 then
      match d.readdir current with
      | .entry e => some (some e)
      | _ => none
    else some none
  | .rejected _ => some none
  | _ => none

/-- Calling it until it returns NULL. -/
def listLoop (p : Process Directory) (fd : BitVec 32) : ℕ → ℕ → Option (List Dirent)
  | _, 0 => none
  | current, fuel + 1 =>
    match libcReaddir p fd current with
    | none => none
    | some none => some []
    | some (some e) => (listLoop p fd (add32 current 1) fuel).map (e :: ·)

structure Opened (p : Process Directory) (fd : BitVec 32) (d : Directory) : Prop where
  valid : fd.toNat < p.fds.length
  inside : fd.toNat < nrOpen
  entry : p.fds.entries fd.toNat = some d

/-- The loop ends, has listed every name once, and every listed name is found. -/
def ListsOnce (p : Process Directory) (fd : BitVec 32) (d : Directory) : Prop :=
  ∃ rounds, ∀ fuel, rounds ≤ fuel → ∃ es, listLoop p fd 0 fuel = some es ∧
    (∀ e ∈ d.entries, (es.map Dirent.dName).count e.dName = 1) ∧
    ∀ e ∈ es, e ∈ d.entries ∧ d.finds e.dName = true

variable {fd : BitVec 32} {p : Process Directory} {t : Vfs.TreeNode} {index : ℕ}

theorem arrayReaddir_iff {nodes : List Dirent} (hlen : nodes.length < 2 ^ 32)
    (hindex : index < 2 ^ 32) :
    arrayReaddir nodes index = (match nodes[index]? with
      | some e => .entry e
      | none => .null) ↔ nodes ≠ [] := by
  cases nodes with
  | nil =>
    -- The count minus one is the largest word, and no index is above it.
    have hlast : ¬ sub32 ([] : List Dirent).length 1 < index := by
      change ¬ 2 ^ 32 - 1 < index
      omega
    rw [arrayReaddir, if_neg hlast]
    simp
  | cons e nodes =>
    refine iff_of_true ?_ (List.cons_ne_nil e nodes)
    have hlast : sub32 (e :: nodes).length 1 = nodes.length := by
      rw [sub32_of_le hlen (by simp), List.length_cons, Nat.add_sub_cancel]
    rw [arrayReaddir, hlast]
    split_ifs with hout
    · rw [List.getElem?_eq_none (by rw [List.length_cons]; omega)]
    · rw [List.getElem?_eq_getElem (by rw [List.length_cons]; omega)]

theorem rootReaddir_iff (t : Vfs.TreeNode) (index : ℕ) :
    rootReaddir t index = (match (rootEntries t)[index]? with
      | some e => .entry e
      | none => .null) ↔ index ≤ t.children.length := by
  have hlen : (rootEntries t).length = t.children.length := List.length_map _
  rw [rootReaddir]
  rcases lt_trichotomy index t.children.length with hlt | heq | hgt
  · rw [if_neg (by omega), List.getElem?_eq_getElem (by omega)]
    exact iff_of_true rfl hlt.le
  · rw [if_pos heq, List.getElem?_eq_none (by omega)]
    exact iff_of_true rfl heq.le
  · rw [if_neg (by omega), List.getElem?_eq_none (by omega)]
    exact iff_of_false (fun h => by cases h) (by omega)

theorem registerAll_length (targets : List DevNode) :
    (registerAll targets).nrDevMax = 32 ∧ (registerAll targets).devs.length ≤ 32 := by
  induction targets using List.reverseRecOn with
  | nil => exact ⟨rfl, Nat.zero_le 32⟩
  | append_singleton targets target ih =>
    obtain ⟨hmax, hlen⟩ := ih
    rw [registerAll, List.foldl_append, List.foldl_cons, List.foldl_nil]
    change (devfsRegister (registerAll targets) target).2.nrDevMax = 32 ∧
      (devfsRegister (registerAll targets) target).2.devs.length ≤ 32
    rw [devfsRegister]
    split_ifs with hfull
    · exact ⟨hmax, hlen⟩
    · refine ⟨hmax, ?_⟩
      rw [List.length_append, List.length_singleton]
      omega

section Root
open Vfs

theorem replaceFirst_names (n : TreeNode) (l : List TreeNode) :
    (replaceFirst n l).map TreeNode.name = l.map TreeNode.name := by
  induction l with
  | nil => rfl
  | cons x xs ih =>
    rw [replaceFirst]
    split_ifs with h
    · rw [List.map_cons, List.map_cons, h]
    · rw [List.map_cons, List.map_cons, ih]

def Siblings (t : TreeNode) : Prop :=
  t.children.length ≤ maxTreeChildren ∧ (t.children.map TreeNode.name).Nodup

theorem Siblings.mountAt {lroot : Option ℕ} {t' : TreeNode} (ht : Siblings t) {cs : List Bytes}
    (h : mountAt lroot t cs = some t') : Siblings t' := by
  cases cs with
  | nil =>
    simp only [Vfs.mountAt, Option.some.injEq] at h
    rw [← h]
    exact ht
  | cons c cs =>
    simp only [Vfs.mountAt] at h
    split at h
    next child hchild =>
      obtain ⟨n, -, rfl⟩ := Option.map_eq_some_iff.mp h
      have hnames := replaceFirst_names n t.children
      have hlen := congrArg List.length hnames
      rw [List.length_map, List.length_map] at hlen
      exact ⟨hlen.trans_le ht.1, by rw [TreeNode.children, hnames]; exact ht.2⟩
    next hchild =>
      split_ifs at h with hroom
      obtain ⟨n, hn, rfl⟩ := Option.map_eq_some_iff.mp h
      have hname : n.name = c := mountAt_name hn
      refine ⟨?_, ?_⟩
      · rw [TreeNode.children, List.length_append, List.length_singleton]
        omega
      · rw [TreeNode.children, List.map_append, List.map_singleton, ← List.concat_eq_append,
          List.nodup_concat]
        refine ⟨?_, ht.2⟩
        intro hmem
        obtain ⟨x, hx, hxn⟩ := List.mem_map.mp hmem
        exact absurd (decide_eq_true (hxn.trans hname)) (List.find?_eq_none.mp hchild x hx)

theorem siblings_mountAll {vfsRoot : ℕ} {ms : List MountCall}
    (h : mountAll vfsRoot ms = some t) : Siblings t := by
  induction ms using List.reverseRecOn generalizing t with
  | nil =>
    cases h
    exact ⟨Nat.zero_le _, List.nodup_nil⟩
  | append_singleton ms m ih =>
    obtain ⟨t₀, h₀, hstep⟩ := mountAll_snoc h
    rw [vfsMount_eq] at hstep
    cases htarget : m.target with
    | none =>
      rw [htarget] at hstep
      cases hstep
      exact ih h₀
    | some cs =>
      rw [htarget] at hstep
      exact (ih h₀).mountAt hstep

theorem Siblings.child_eq (ht : Siblings t) {c : TreeNode} (hc : c ∈ t.children) :
    t.child c.name = some c := by
  cases hfind : t.child c.name with
  | none => exact absurd (decide_eq_true rfl) (List.find?_eq_none.mp hfind c hc)
  | some n =>
    have hn : n ∈ t.children := List.mem_of_find?_eq_some hfind
    rw [List.inj_on_of_nodup_map ht.2 hn hc (child_name hfind)]

end Root

section Loop
variable {d : Directory}

theorem libcReaddir_opened (h : Opened p fd d) (current : ℕ) :
    libcReaddir p fd current =
      match d.readdir current with
      | .null => some none
      | .entry e => some (some e)
      | .outside _ => none := by
  have hcall : (sysReaddir directoryVfs p fd current).1 =
      .accepted d (if directoryVfs.readdir d current then 0 else 1) := by
    have hlen : ¬ p.fds.length ≤ fd.toNat := Nat.not_le.mpr h.valid
    have hopen : ¬ nrOpen ≤ fd.toNat := Nat.not_le.mpr h.inside
    simp only [sysReaddir, validated, if_neg hlen, if_neg hopen, h.entry]
  rw [libcReaddir, hcall]
  cases hread : d.readdir current <;> simp [directoryVfs, hread]

theorem listLoop_drop (h : Opened p fd d) (hlen : d.entries.length < 2 ^ 32)
    (hread : ∀ index ≤ d.entries.length, d.readdir index = d.expected index) {current fuel : ℕ}
    (hcurrent : current ≤ d.entries.length) (hfuel : d.entries.length - current < fuel) :
    listLoop p fd current fuel = some (d.entries.drop current) := by
  induction fuel generalizing current with
  | zero => omega
  | succ fuel ih =>
    rw [listLoop, libcReaddir_opened h, hread current hcurrent, Directory.expected]
    rcases Nat.eq_or_lt_of_le hcurrent with heq | hlt
    · rw [List.getElem?_eq_none heq.ge, List.drop_eq_nil_of_le heq.ge]
    · rw [List.getElem?_eq_getElem hlt, List.drop_eq_getElem_cons hlt]
      dsimp only
      rw [add32_of_lt (by omega), ih hlt (by omega), Option.map_some]

theorem listsOnce_iff (h : Opened p fd d) (hlen : d.entries.length < 2 ^ 32)
    (hread : ∀ index ≤ d.entries.length, d.readdir index = d.expected index) :
    ListsOnce p fd d ↔
      (d.entries.map Dirent.dName).Nodup ∧ ∀ e ∈ d.entries, d.finds e.dName = true := by
  have hlist : ∀ fuel, d.entries.length + 1 ≤ fuel → listLoop p fd 0 fuel = some d.entries :=
    fun fuel hfuel => listLoop_drop h hlen hread (Nat.zero_le _) (by omega)
  rw [List.nodup_iff_count_eq_one, List.forall_mem_map]
  constructor
  · rintro ⟨rounds, hall⟩
    obtain ⟨es, hes, honce, hfound⟩ :=
      hall (max rounds (d.entries.length + 1)) (le_max_left _ _)
    rw [hlist _ (le_max_right _ _)] at hes
    obtain rfl := Option.some.inj hes
    exact ⟨honce, fun e he => (hfound e he).2⟩
  · rintro ⟨honce, hfound⟩
    exact ⟨d.entries.length + 1, fun fuel hfuel => ⟨d.entries, hlist fuel hfuel, honce,
      fun e he => ⟨he, hfound e he⟩⟩⟩

theorem not_listsOnce_of_outside (h : Opened p fd d) (hout : d.readdir 0 = .outside 0) :
    ¬ ListsOnce p fd d := by
  rintro ⟨rounds, hall⟩
  obtain ⟨es, hes, -⟩ := hall (rounds + 1) (Nat.le_succ _)
  rw [listLoop, libcReaddir_opened h, hout] at hes
  cases hes

end Loop

theorem arrayReaddir_nil : arrayReaddir [] 0 = .outside 0 := rfl

structure Backed {α : Type} (d : Directory) (nodes : List α) (entry : α → Dirent) : Prop where
  few : nodes.length < 2 ^ 32
  entries : d.entries = nodes.map entry
  readdir : d.readdir = arrayReaddir d.entries
  finds : ∀ name, d.finds name = (nodes.find? fun n => name = (entry n).dName).isSome

namespace Backed
variable {α : Type} {d : Directory} {nodes : List α} {entry : α → Dirent}
  (hd : Backed d nodes entry)
include hd

theorem length_eq : d.entries.length = nodes.length := by
  rw [hd.entries, List.length_map]

theorem readdir_iff (hindex : index < 2 ^ 32) :
    d.readdir index = d.expected index ↔ nodes ≠ [] := by
  have hempty : d.entries ≠ [] ↔ nodes ≠ [] := by
    rw [hd.entries, ne_eq, List.map_eq_nil_iff]
  have hfew : d.entries.length < 2 ^ 32 := hd.length_eq.trans_lt hd.few
  rw [hd.readdir, ← hempty]
  exact arrayReaddir_iff hfew hindex

theorem listsOnce_iff (h : Opened p fd d) :
    ListsOnce p fd d ↔ nodes ≠ [] ∧ (nodes.map fun n => (entry n).dName).Nodup := by
  have hlen := hd.length_eq
  have hfew := hd.few
  by_cases hempty : nodes = []
  · refine iff_of_false (not_listsOnce_of_outside h ?_) fun hc => hc.1 hempty
    rw [hd.readdir, hd.entries, hempty]
    exact arrayReaddir_nil
  · have hnames : d.entries.map Dirent.dName = nodes.map fun n => (entry n).dName := by
      rw [hd.entries, List.map_map]
      rfl
    rw [Listings.listsOnce_iff h (by omega) fun index hindex => (hd.readdir_iff (by omega)).mpr hempty,
      hnames, and_iff_right hempty, and_iff_left]
    intro e he
    rw [hd.entries] at he
    obtain ⟨n, hn, rfl⟩ := List.mem_map.mp he
    rw [hd.finds, List.find?_isSome]
    exact ⟨n, hn, decide_eq_true rfl⟩

end Backed

theorem devfs_backed (targets : List DevNode) :
    Backed (.devfs (registerAll targets)) (registerAll targets).devs fun n => ⟨n.inode, n.name⟩ where
  few := by
    have hlen := (registerAll_length targets).2
    omega
  entries := rfl
  readdir := rfl
  finds _ := rfl

theorem ramdisk_backed {r : Initrd.Ramdisk} (h : r.rootNodes.length < 2 ^ 31) :
    Backed (.ramdisk r) r.rootNodes fun n => ⟨n.inode, n.name⟩ where
  few := by omega
  entries := rfl
  readdir := rfl
  finds _ := rfl

theorem root_listsOnce_iff (ht : Siblings t) (h : Opened p fd (.root t)) :
    ListsOnce p fd (.root t) ↔ ∀ c ∈ t.children, c.file.isSome := by
  have hsmall := ht.1
  unfold Vfs.maxTreeChildren at hsmall
  have hcount : (Directory.root t).entries.length = t.children.length := List.length_map _
  have hnames : (Directory.root t).entries.map Dirent.dName = t.children.map Vfs.TreeNode.name := by
    rw [Directory.entries, rootEntries, List.map_map]
    rfl
  rw [listsOnce_iff h (by omega) fun index hindex => (rootReaddir_iff t index).mpr (by omega),
    hnames, and_iff_right ht.2]
  have hfinds : ∀ c ∈ t.children, (Directory.root t).finds c.name = c.file.isSome := by
    intro c hc
    rw [Directory.finds, ht.child_eq hc, Option.bind_some]
  constructor
  · intro hall c hc
    rw [← hfinds c hc]
    exact hall ⟨0, c.name⟩ (List.mem_map.mpr ⟨c, hc, rfl⟩)
  · intro hall e he
    obtain ⟨c, hc, rfl⟩ := List.mem_map.mp he
    rw [hfinds c hc]
    exact hall c hc

/-- Index by index a `readdir` answers as it should iff the index is not behind
the end of the root, or the devices or files are not none; and a program lists
every name once, and only names that are found, iff there are no two nodes of
one name and the root has no child without a mounted node. -/
theorem directory_listing_iff {d : Directory} (hd : d.Built) :
    (∀ index < 2 ^ 32, d.readdir index = d.expected index ↔ d.Bounded index) ∧
      ∀ p fd, Opened p fd d → (ListsOnce p fd d ↔ d.Distinct) := by
  cases d with
  | root t =>
    obtain ⟨vfsRoot, ms, hrun⟩ := hd
    exact ⟨fun index _ => rootReaddir_iff t index,
      fun p fd h => root_listsOnce_iff (siblings_mountAll hrun) h⟩
  | devfs d =>
    obtain ⟨targets, rfl⟩ := hd
    have hnodes := devfs_backed targets
    exact ⟨fun index hindex => hnodes.readdir_iff hindex, fun p fd h => hnodes.listsOnce_iff h⟩
  | ramdisk r =>
    have hnodes := ramdisk_backed hd
    exact ⟨fun index hindex => hnodes.readdir_iff hindex, fun p fd h => hnodes.listsOnce_iff h⟩

def holding (d : Directory) : Process Directory := ⟨⟨fun _ => some d, 1⟩, fun _ => 0⟩

theorem holding_opened (d : Directory) : Opened (holding d) 0 d :=
  ⟨Nat.one_pos, by decide, rfl⟩

theorem directory_listing_iff_keyboard :
    (Directory.devfs (registerAll [⟨[107, 98, 100], 7⟩])).readdir 1 = .null ∧
      ListsOnce (holding (.devfs (registerAll [⟨[107, 98, 100], 7⟩]))) 0
        (.devfs (registerAll [⟨[107, 98, 100], 7⟩])) := by
  have hdir := directory_listing_iff (d := .devfs (registerAll [⟨[107, 98, 100], 7⟩])) ⟨_, rfl⟩
  have hne : (registerAll [⟨[107, 98, 100], 7⟩]).devs ≠ [] := by decide
  exact ⟨(hdir.1 1 (by decide)).mpr hne,
    (hdir.2 _ 0 (holding_opened _)).mpr ⟨hne, by decide⟩⟩

/-- Index 1 of the empty root and index 0 of an empty devfs are read, the latter
also by every program that lists the devices. -/
theorem empty_directories_read_outside :
    (Directory.root (Vfs.vfsInit 1)).Built ∧
    (Directory.root (Vfs.vfsInit 1)).readdir 1 = .outside 1 ∧
    (Directory.devfs (registerAll [])).Built ∧
    (Directory.devfs (registerAll [])).readdir 0 = .outside 0 ∧
    ¬ ListsOnce (holding (.devfs (registerAll []))) 0 (.devfs (registerAll [])) := by
  refine ⟨⟨1, [], rfl⟩, rfl, ⟨[], rfl⟩, arrayReaddir_nil, ?_⟩
  exact not_listsOnce_of_outside (holding_opened _) arrayReaddir_nil

end Bingos.Listings
