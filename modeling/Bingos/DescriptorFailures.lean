import Bingos.DescriptorRuns
import Bingos.VfsModel

set_option autoImplicit false

/-! Opening a file that does not exist, and the copy of the descriptor table
that a forked process gets. -/
namespace Bingos.DescriptorTable
open MachineWords StepRuns

variable {Node : Type}

def Full (entries : ℕ → Option Node) : Prop := ∀ fd < nrOpen, (entries fd).isSome

theorem freeSlot_full (entries : ℕ → Option Node) (fd fuel : ℕ) :
    freeSlot entries fd fuel = fd + fuel ↔ ∀ i, fd ≤ i → i < fd + fuel → (entries i).isSome := by
  induction fuel generalizing fd with
  | zero => exact iff_of_true rfl fun i hlo hhi => by omega
  | succ fuel ih =>
    rw [freeSlot]
    split_ifs with h
    · refine iff_of_false (by omega) fun hall => ?_
      have hfd := hall fd (le_refl _) (by omega)
      rw [Option.isNone_iff_eq_none.mp h] at hfd
      cases hfd
    · have hstep : fd + (fuel + 1) = fd + 1 + fuel := by omega
      rw [hstep, ih]
      constructor
      · intro hall i hlo hhi
        rcases Nat.eq_or_lt_of_le hlo with rfl | hlt
        · rw [Option.isNone_iff_eq_none] at h
          exact Option.isSome_iff_ne_none.mpr h
        · exact hall i hlt hhi
      · intro hall i hlo hhi
        exact hall i (by omega) hhi

theorem nrOpen_le_freeSlot_iff (entries : ℕ → Option Node) :
    nrOpen ≤ freeSlot entries 0 nrOpen ↔ Full entries := by
  have hle := (freeSlot_spec entries 0 nrOpen).1
  have hfull := freeSlot_full entries 0 nrOpen
  rw [Nat.zero_add] at hle hfull
  rw [← (Nat.le_antisymm_iff.trans (and_iff_right hle)), hfull]
  exact ⟨fun h fd => h fd (Nat.zero_le _), fun h fd _ => h fd⟩

/-- What a failing `sys_open` may do: return a negative number, -EMFILE where
no descriptor is left. -/
def FailsCleanly (p : Process Node) (lookup : Option Node) : Prop :=
  (lookup = none → ∃ value < 0, sysOpen p lookup = (.rejected value, p)) ∧
    (Full p.fds.entries → sysOpen p lookup = (.rejected (-eMfile), p))

theorem sysOpen_full {p : Process Node} (hfull : Full p.fds.entries) (lookup : Option Node) :
    sysOpen p lookup = (.rejected (-eMfile), p) := by
  have hslot := (nrOpen_le_freeSlot_iff p.fds.entries).mpr hfull
  simp only [sysOpen, doOpen, if_pos hslot]

theorem sysOpen_missing {p : Process Node} (hroom : ¬ Full p.fds.entries) :
    sysOpen p none = (.nullNode, p) := by
  have hslot := mt (nrOpen_le_freeSlot_iff p.fds.entries).mp hroom
  simp only [sysOpen, doOpen, if_neg hslot]

/-- `sys_open` fails cleanly iff the file exists or the table is full. -/
theorem open_fails_cleanly_iff (fs : Vfs.FileSystem) (vfsRoot : ℕ) (t : Vfs.TreeNode)
    (path beyond : CStrings.Bytes) (p : Process ℕ) :
    FailsCleanly p (Vfs.vfsLookup fs vfsRoot t path beyond) ↔
      (Vfs.vfsLookup fs vfsRoot t path beyond).isSome ∨ Full p.fds.entries := by
  generalize Vfs.vfsLookup fs vfsRoot t path beyond = lookup
  constructor
  · intro h
    by_contra hnot
    obtain ⟨hmissing, hroom⟩ := not_or.mp hnot
    rw [Option.not_isSome_iff_eq_none] at hmissing
    subst hmissing
    obtain ⟨value, -, hopen⟩ := h.1 rfl
    rw [sysOpen_missing hroom] at hopen
    cases hopen
  · rintro (hfound | hfull)
    · refine ⟨fun hnone => ?_, fun hfull => sysOpen_full hfull lookup⟩
      rw [hnone] at hfound
      cases hfound
    · exact ⟨fun _ => ⟨-eMfile, by decide, sysOpen_full hfull lookup⟩,
        fun _ => sysOpen_full hfull lookup⟩

/-- A process without open files opens a path that nothing is mounted at. -/
theorem missing_file_dereferenced :
    Vfs.vfsLookup ⟨fun _ => 0, fun _ => none⟩ 1 (Vfs.vfsInit 1) [Vfs.slash, 97] [] = none ∧
      (sysOpen (empty fun _ => 0) (Vfs.vfsLookup ⟨fun _ => 0, fun _ => none⟩ 1 (Vfs.vfsInit 1)
        [Vfs.slash, 97] [])).1 = .nullNode ∧
      ¬ FailsCleanly (empty fun _ => 0) (Vfs.vfsLookup ⟨fun _ => 0, fun _ => none⟩ 1
        (Vfs.vfsInit 1) [Vfs.slash, 97] []) := by
  have hmissing : Vfs.vfsLookup ⟨fun _ => 0, fun _ => none⟩ 1 (Vfs.vfsInit 1) [Vfs.slash, 97] [] =
      none := by decide
  have hroom : ¬ Full (empty fun _ : ℕ => 0).fds.entries := fun h => by cases h 0 (by decide)
  refine ⟨hmissing, ?_, fun h => ?_⟩
  · rw [hmissing, sysOpen_missing hroom]
  · rw [hmissing] at h
    obtain ⟨value, -, hopen⟩ := h.1 rfl
    rw [sysOpen_missing hroom] at hopen
    cases hopen

theorem openCount_eq_nrOpen_iff (entries : ℕ → Option Node) :
    openCount entries = nrOpen ↔ Full entries := by
  have hcard := Finset.card_filter_eq_iff (s := Finset.range nrOpen)
    (p := fun i => (entries i).isSome = true)
  rw [Finset.card_range] at hcard
  rw [openCount, hcard]
  simp [Full]

section Fork
variable [DecidableEq Node]

def vfsClone (refs : Node → ℕ) (source : Option Node) : Option Node × (Node → ℕ) :=
  match source with
  | none => (none, refs)
  | some node => (some node, Function.update refs node (add32 (refs node) 1))

def cloneEntry (parent : FdSet Node) (st : (ℕ → Option Node) × (Node → ℕ)) (i : ℕ) :
    (ℕ → Option Node) × (Node → ℕ) :=
  let r := vfsClone st.2 (parent.entries i)
  (Function.update st.1 i r.1, r.2)

/-- The table of the child of `process_create`; `garbage` is what its new block of
entries holds. -/
def processCreateFds (garbage : ℕ → Option Node) (refs : Node → ℕ) (parent : FdSet Node) :
    FdSet Node × (Node → ℕ) :=
  let st := (List.range parent.length).foldl (cloneEntry parent) (garbage, refs)
  (⟨st.1, parent.length⟩, st.2)

theorem vfsClone_node (refs : Node → ℕ) (source : Option Node) :
    (vfsClone refs source).1 = source := by
  cases source <;> rfl

theorem foldl_cloneEntry (parent : FdSet Node) (n : ℕ) (st : (ℕ → Option Node) × (Node → ℕ)) :
    ((List.range n).foldl (cloneEntry parent) st).1 =
      fun fd => if fd < n then parent.entries fd else st.1 fd := by
  induction n with
  | zero => rfl
  | succ n ih =>
    rw [List.range_succ, List.foldl_append, List.foldl_cons, List.foldl_nil]
    dsimp only [cloneEntry]
    funext fd
    rw [vfsClone_node, ih, Function.update_apply]
    by_cases heq : fd = n
    · rw [if_pos heq, if_pos (by omega), heq]
    · rw [if_neg heq]
      by_cases hlt : fd < n
      · rw [if_pos hlt, if_pos (by omega)]
      · rw [if_neg hlt, if_neg (by omega)]

def SameTable (parent child : FdSet Node) : Prop :=
  (∀ fd < nrOpen, child.entries fd = parent.entries fd) ∧ child.length = parent.length

theorem processCreateFds_same_iff (garbage : ℕ → Option Node) (refs : Node → ℕ)
    (parent : FdSet Node) :
    SameTable parent (processCreateFds garbage refs parent).1 ↔
      ∀ fd < nrOpen, parent.length ≤ fd → garbage fd = parent.entries fd := by
  have hentries : (processCreateFds garbage refs parent).1.entries =
      fun fd => if fd < parent.length then parent.entries fd else garbage fd :=
    foldl_cloneEntry parent parent.length (garbage, refs)
  rw [SameTable, hentries]
  constructor
  · intro h fd hfd hle
    have hsame := h.1 fd hfd
    dsimp only at hsame
    rwa [if_neg (by omega)] at hsame
  · intro h
    refine ⟨fun fd hfd => ?_, rfl⟩
    dsimp only
    split_ifs with hlt
    · rfl
    · exact h fd hfd (by omega)

/-- The child has the parent's table iff the entries that are not copied happen
to be in its memory, which they are for certain only in a full table. -/
theorem fork_same_table_iff [Nonempty Node] {vfs : Vfs Node} {offset : Node → ℕ}
    {history : List (Event Node)} {parent : Process Node}
    (h : Reach (Step vfs) (empty offset) history parent) (refs : Node → ℕ) :
    (∀ garbage, SameTable parent.fds (processCreateFds garbage refs parent.fds).1 ↔
      ∀ fd < nrOpen, openCount parent.fds.entries ≤ fd → garbage fd = parent.fds.entries fd) ∧
    ((∀ garbage, SameTable parent.fds (processCreateFds garbage refs parent.fds).1) ↔
      Full parent.fds.entries) := by
  have hlen := (reach_agrees h).length
  have hcopy : ∀ garbage, SameTable parent.fds (processCreateFds garbage refs parent.fds).1 ↔
      ∀ fd < nrOpen, openCount parent.fds.entries ≤ fd → garbage fd = parent.fds.entries fd := by
    intro garbage
    rw [processCreateFds_same_iff, hlen]
  refine ⟨hcopy, ?_⟩
  rw [← openCount_eq_nrOpen_iff]
  constructor
  · intro hall
    by_contra hne
    have hlt := lt_of_le_of_ne (openCount_le parent.fds.entries) hne
    -- Memory that differs from the parent's table at the first entry that is not copied.
    obtain ⟨x, hx⟩ := exists_ne (parent.fds.entries (openCount parent.fds.entries))
    exact hx ((hcopy fun _ => x).mp (hall fun _ => x) _ hlt (le_refl _))
  · intro heq garbage
    rw [hcopy, heq]
    intro fd hlt hle
    omega

end Fork

theorem fork_same_table_iff_hole :
    SameTable holeProcess.fds (processCreateFds (Function.update (fun _ => none) 1 (some 6))
      (fun _ => 0) holeProcess.fds).1 := by
  apply ((fork_same_table_iff hole_reached fun _ => 0).1 _).mpr
  intro fd _ _
  by_cases h1 : fd = 1
  · subst h1
    rfl
  · by_cases h0 : fd = 0
    · subst h0
      rfl
    · simp [holeProcess, h1, h0]

/-- Two files opened and the first one closed: the child loses the second, and
gets in its place what its memory held. -/
theorem forked_hole_reads_garbage :
    Reach (Step plainVfs) (empty fun _ => 0) holeHistory holeProcess ∧
      holeProcess.fds.entries 1 = some 6 ∧
      (processCreateFds (fun _ => some 99) (fun _ => 0) holeProcess.fds).1.entries 1 = some 99 ∧
      ¬ SameTable holeProcess.fds
        (processCreateFds (fun _ => some 99) (fun _ => 0) holeProcess.fds).1 := by
  have hchild : (processCreateFds (fun _ => some 99) (fun _ => 0) holeProcess.fds).1.entries 1 =
      some 99 := by decide
  have hparent : holeProcess.fds.entries 1 = some 6 := by decide
  refine ⟨hole_reached, hparent, hchild, fun h => ?_⟩
  have hsame := h.1 1 (by decide)
  rw [hchild, hparent] at hsame
  exact absurd hsame (by decide)

end Bingos.DescriptorTable
