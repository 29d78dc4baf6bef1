import Bingos.DescriptorTable

set_option autoImplicit false

namespace Bingos.DescriptorTable
open MachineWords StepRuns

variable {Node : Type}

def openCount (entries : ℕ → Option Node) : ℕ :=
  ((Finset.range nrOpen).filter (fun i => (entries i).isSome)).card

theorem openCount_le (entries : ℕ → Option Node) : openCount entries ≤ nrOpen := by
  calc
    _ ≤ (Finset.range nrOpen).card := Finset.card_filter_le _ _
    _ = nrOpen := Finset.card_range _

theorem openCount_insert (entries : ℕ → Option Node) (fd : ℕ) (node : Node) (hfd : fd < nrOpen)
    (hfree : entries fd = none) :
    openCount (Function.update entries fd (some node)) = openCount entries + 1 := by
  have hset : (Finset.range nrOpen).filter
      (fun i => (Function.update entries fd (some node) i).isSome) =
      insert fd ((Finset.range nrOpen).filter (fun i => (entries i).isSome)) := by
    ext i
    by_cases hi : i = fd
    · subst hi
      simp [hfd]
    · simp [hi]
  unfold openCount
  rw [hset, Finset.card_insert_of_notMem (by simp [hfree])]

theorem openCount_erase (entries : ℕ → Option Node) (fd : ℕ) (hfd : fd < nrOpen)
    (hopen : (entries fd).isSome) :
    openCount (Function.update entries fd none) + 1 = openCount entries := by
  have hset : (Finset.range nrOpen).filter (fun i => (Function.update entries fd none i).isSome) =
      ((Finset.range nrOpen).filter (fun i => (entries i).isSome)).erase fd := by
    ext i
    by_cases hi : i = fd
    · subst hi
      simp
    · simp [hi]
  unfold openCount
  rw [hset]
  exact Finset.card_erase_add_one (by simp [hfd, hopen])

/-- The table agrees with the history, and `length` counts its open entries. -/
structure Agrees (history : List (Event Node)) (p : Process Node) : Prop where
  held_iff : ∀ fd : ℤ, held history fd = true ↔
    ∃ i : ℕ, i < nrOpen ∧ fd = (i : ℤ) ∧ (p.fds.entries i).isSome
  length : p.fds.length = openCount p.fds.entries

variable {c : Call Node} {e : Event Node} {history : List (Event Node)} {o : Outcome Node}
  {p q : Process Node} {vfs : Vfs Node}

theorem Agrees.length_le (h : Agrees history p) :
    p.fds.length ≤ nrOpen := h.length ▸ openCount_le _

theorem held_snoc (history : List (Event Node)) (e : Event Node) (fd : ℤ) :
    held (history ++ [e]) fd = track fd (held history fd) e := by
  simp only [held, List.foldl_append, List.foldl_cons, List.foldl_nil]

theorem Agrees.empty (offset : Node → ℕ) : Agrees ([] : List (Event Node)) (empty offset) := by
  refine ⟨?_, ?_⟩
  · intro fd
    simp [held, DescriptorTable.empty]
  · simp [DescriptorTable.empty, openCount]

theorem Agrees.unchanged
    (h : Agrees history p) (hfds : q.fds = p.fds) (ht : ∀ fd b, track fd b e = b) :
    Agrees (history ++ [e]) q := by
  refine ⟨?_, ?_⟩
  · intro fd
    rw [held_snoc, ht, hfds]
    exact h.held_iff fd
  · rw [hfds]
    exact h.length

theorem Agrees.update {i : ℕ} (h : Agrees history p) (hi : i < nrOpen) (v : Option Node)
    (ht : ∀ fd b, track fd b e = if (i : ℤ) = fd then v.isSome else b) {length : ℕ}
    (hlen : length = openCount (Function.update p.fds.entries i v)) :
    Agrees (history ++ [e]) ⟨⟨Function.update p.fds.entries i v, length⟩, p.offset⟩ := by
  refine ⟨fun fd => ?_, hlen⟩
  rw [held_snoc, ht]
  by_cases heq : (i : ℤ) = fd
  · rw [if_pos heq]
    constructor
    · intro hv
      exact ⟨i, hi, heq.symm, by simpa using hv⟩
    · rintro ⟨j, _, hj, hs⟩
      obtain rfl : j = i := by omega
      simpa using hs
  · rw [if_neg heq, h.held_iff fd]
    apply exists_congr
    intro j
    by_cases hj : j = i
    · subst hj
      simp [Ne.symm heq]
    · simp only [Function.update_of_ne hj]

theorem Agrees.sysOpen {lookup : Option Node} (h : Agrees history p)
    (hc : sysOpen p lookup = (o, q)) (ho : o.Completes) :
    Agrees (history ++ [(.openPath lookup, o)]) q := by
  rcases sysOpen_cases hc ho with ⟨v, rfl, rfl⟩ | ⟨node, slot, rfl, hlt, hfree, rfl, rfl⟩
  · exact h.unchanged rfl (fun _ _ => rfl)
  · refine h.update hlt (some node) (fun _ _ => rfl) ?_
    have hle := openCount_insert p.fds.entries slot node hlt hfree
    have hmax := openCount_le (Function.update p.fds.entries slot (some node))
    rw [hle, h.length, add32_of_lt]
    unfold nrOpen at hmax
    omega

variable {fd : BitVec 32} {value : ℤ} {body : Node → ℤ × Process Node} {node : Node}

theorem Agrees.sysClose (h : Agrees history p)
    (hc : sysClose vfs p fd = (o, q)) (ho : o.Completes) :
    Agrees (history ++ [(.close fd, o)]) q := by
  rcases sysClose_cases hc ho with ⟨v, rfl, rfl⟩ | ⟨node, hlt, he, rfl, rfl⟩
  · exact h.unchanged rfl (fun _ _ => rfl)
  · refine h.update hlt none (fun x b => ?_) ?_
    · rw [← toInt_of_small hlt]
      rfl
    · have hle := openCount_erase p.fds.entries fd.toNat hlt (by simp [he])
      have hmax := openCount_le p.fds.entries
      unfold nrOpen at hmax
      rw [h.length, sub32_of_le (by omega) (by omega)]
      omega

theorem validated_fds (hb : ∀ node, (body node).2.fds = p.fds)
    (hc : validated p fd body = (o, q)) (ho : o.Completes) : q.fds = p.fds := by
  rcases validated_cases hc ho with ⟨v, -, rfl⟩ | ⟨node, -, -, rfl⟩
  · rfl
  · exact hb node

theorem Agrees.step [DecidableEq Node] (h : Agrees history p) (hs : Step vfs p e q) :
    Agrees (history ++ [e]) q := by
  obtain ⟨c, o⟩ := e
  obtain ⟨hc, ho⟩ := hs
  cases c with
  | openPath lookup => exact h.sysOpen hc ho
  | close fd => exact h.sysClose hc ho
  | read fd count => exact h.unchanged (validated_fds (fun _ => rfl) hc ho) (fun _ _ => rfl)
  | readdir fd index => exact h.unchanged (validated_fds (fun _ => rfl) hc ho) (fun _ _ => rfl)
  | write fd size => exact h.unchanged (validated_fds (fun _ => rfl) hc ho) (fun _ _ => rfl)

def Call.descriptor : Call Node → Option ℤ
  | .openPath _ => none
  | .close fd => some fd.toInt
  | .read fd _ => some fd.toInt
  | .readdir fd _ => some fd.toInt
  | .write fd _ => some fd.toInt

def Outcome.Accepted : Outcome Node → Prop
  | .accepted _ _ => True
  | _ => False

/-- What a caller may expect of one call: no access outside the table, and on
a descriptor acceptance exactly when it is held, else a negative result. -/
def Honours (history : List (Event Node)) (c : Call Node) (o : Outcome Node) : Prop :=
  (∀ index, o ≠ .outside index) ∧
    ∀ fd, c.descriptor = some fd →
      (o.Accepted ↔ held history fd = true) ∧
      (held history fd = false → ∃ value < 0, o = .rejected value)

/-- `sys_close` is not given a negative descriptor or `NR_OPEN` itself, and a
validated call is not given an open descriptor at or above the number of open
ones (which happens once a lower descriptor has been closed). -/
def Answerable (p : Process Node) : Call Node → Prop
  | .openPath _ => True
  | .close fd => 0 ≤ fd.toInt ∧ fd.toInt ≠ nrOpen
  | .read fd _ | .readdir fd _ | .write fd _ =>
    fd.toNat < nrOpen → (p.fds.entries fd.toNat).isSome → fd.toNat < openCount p.fds.entries

theorem Agrees.held_entry (h : Agrees history p) (hlt : fd.toNat < nrOpen) :
    held history fd.toInt = true ↔ (p.fds.entries fd.toNat).isSome := by
  rw [h.held_iff, toInt_of_small hlt]
  constructor
  · rintro ⟨i, _, hi, hs⟩
    have : i = fd.toNat := by omega
    exact this ▸ hs
  · intro hs
    exact ⟨fd.toNat, hlt, rfl, hs⟩

theorem Agrees.not_held (h : Agrees history p)
    {fd : ℤ} (hfd : fd < 0 ∨ (nrOpen : ℤ) ≤ fd) : held history fd = false := by
  rw [← Bool.not_eq_true, h.held_iff]
  rintro ⟨i, hi, rfl, _⟩
  omega

theorem honours_rejected {fd : ℤ}
    (hc : c.descriptor = some fd) (hf : held history fd = false) (hv : value < 0) :
    Honours history c (.rejected value) := by
  refine ⟨fun _ => nofun, ?_⟩
  intro x hx
  obtain rfl : fd = x := Option.some.inj (hc.symm.trans hx)
  exact ⟨by simp [hf, Outcome.Accepted], fun _ => ⟨value, hv, rfl⟩⟩

theorem honours_accepted {fd : ℤ} (hc : c.descriptor = some fd) (ht : held history fd = true) :
    Honours history c (.accepted node value) := by
  refine ⟨fun _ => nofun, ?_⟩
  intro x hx
  obtain rfl : fd = x := Option.some.inj (hc.symm.trans hx)
  exact ⟨by simp [ht, Outcome.Accepted], fun hf => by simp [ht] at hf⟩

theorem Agrees.honours_none (h : Agrees history p) (hc : c.descriptor = some fd.toInt)
    (hlt : fd.toNat < nrOpen) (he : p.fds.entries fd.toNat = none) (hv : value < 0) :
    Honours history c (.rejected value) := by
  refine honours_rejected hc ?_ hv
  rw [← Bool.not_eq_true, h.held_entry hlt, he]
  exact Bool.false_ne_true

theorem Agrees.honours_some (h : Agrees history p)
    (hc : c.descriptor = some fd.toInt) (hlt : fd.toNat < nrOpen)
    (he : p.fds.entries fd.toNat = some node) : Honours history c (.accepted node value) := by
  refine honours_accepted hc ?_
  rw [h.held_entry hlt, he]
  rfl

theorem validated_honours (h : Agrees history p) (hc : c.descriptor = some fd.toInt) :
    Honours history c (validated p fd body).1 ↔
      (fd.toNat < nrOpen → (p.fds.entries fd.toNat).isSome →
        fd.toNat < openCount p.fds.entries) := by
  have hlen := h.length_le
  rw [← h.length]
  unfold validated
  split_ifs with hge hout
  · constructor
    · intro hh hlt hs
      have ht := (h.held_entry hlt).mpr hs
      exact absurd (((hh.2 _ hc).1).mpr ht) (fun hf => hf)
    · intro hcond
      refine honours_rejected hc ?_ (by decide)
      by_cases hlt : fd.toNat < nrOpen
      · rw [← Bool.not_eq_true, h.held_entry hlt]
        intro hs
        exact absurd (hcond hlt hs) (by omega)
      · apply h.not_held
        by_cases hneg : 0 ≤ fd.toInt
        · rw [toInt_of_nonneg hneg]
          omega
        · omega
  · omega
  · have hlt : fd.toNat < nrOpen := by omega
    refine ⟨fun _ _ _ => by omega, fun _ => ?_⟩
    cases he : p.fds.entries fd.toNat with
    | none => exact h.honours_none hc hlt he (by decide)
    | some node => exact h.honours_some hc hlt he

theorem sysClose_honours (h : Agrees history p) (fd : BitVec 32) :
    Honours history (.close fd) (sysClose vfs p fd).1 ↔ 0 ≤ fd.toInt ∧ fd.toInt ≠ nrOpen := by
  unfold sysClose
  split_ifs with hbig hout
  · exact ⟨fun _ => by omega, fun _ => honours_rejected rfl (h.not_held (by omega)) (by decide)⟩
  · constructor
    · intro hh
      exact absurd rfl (hh.1 fd.toInt)
    · intro hcond
      omega
  · have hint := toInt_of_nonneg (show 0 ≤ fd.toInt by omega)
    have hlt : fd.toNat < nrOpen := by omega
    refine ⟨fun _ => by omega, fun _ => ?_⟩
    cases he : p.fds.entries fd.toNat with
    | none => exact h.honours_none rfl hlt he (by decide)
    | some node => exact h.honours_some rfl hlt he

theorem sysOpen_honours (p : Process Node) (lookup : Option Node) :
    Honours history (.openPath lookup) (sysOpen p lookup).1 := by
  refine ⟨fun index => ?_, fun fd hfd => by cases hfd⟩
  simp only [sysOpen, doOpen]
  split_ifs
  · intro h
    cases h
  · cases lookup with
    | none =>
      intro h
      cases h
    | some node =>
      intro h
      cases h

theorem reach_agrees [DecidableEq Node] {offset : Node → ℕ}
    (h : Reach (Step vfs) (empty offset) history p) : Agrees history p :=
  h.invariant Agrees (Agrees.empty offset) (fun _ _ _ _ _ hi hs => hi.step hs)

/-- After every sequence of completed calls, the next call is answered as its
caller may expect exactly when it is `Answerable`. -/
theorem call_honours_iff [DecidableEq Node] (vfs : Vfs Node) (offset : Node → ℕ)
    {history : List (Event Node)} {p : Process Node}
    (h : Reach (Step vfs) (empty offset) history p) (c : Call Node) :
    Honours history c (call vfs p c).1 ↔ Answerable p c := by
  have ha := reach_agrees h
  cases c with
  | openPath lookup => exact ⟨fun _ => trivial, fun _ => sysOpen_honours p lookup⟩
  | close fd => exact sysClose_honours ha fd
  | read fd count => exact validated_honours ha rfl
  | readdir fd index => exact validated_honours ha rfl
  | write fd size => exact validated_honours ha rfl

def holeHistory : List (Event ℕ) :=
  [] ++ [(.openPath (some 5), .accepted 5 0)] ++ [(.openPath (some 6), .accepted 6 1)] ++
    [(.close 0, .accepted 5 0)]

def plainVfs : Vfs ℕ := ⟨fun _ _ size => size, fun _ _ size => size, fun _ _ => true, fun _ => 0⟩

def holeProcess : Process ℕ :=
  ⟨⟨Function.update (Function.update (Function.update (fun _ => none) 0 (some 5)) 1 (some 6)) 0 none,
    1⟩, fun _ => 0⟩

theorem hole_reached : Reach (Step plainVfs) (empty (fun _ => 0)) holeHistory holeProcess :=
  .next (.next (.next .start ⟨rfl, trivial⟩) ⟨rfl, trivial⟩) ⟨rfl, trivial⟩

theorem call_honours_iff_hole :
    Honours holeHistory (.read 0 4) (call plainVfs holeProcess (.read 0 4)).1 ∧
      Answerable holeProcess (.read 0 4) := by
  have ha : Answerable holeProcess (.read 0 4) := fun _ hs => absurd hs Bool.false_ne_true
  exact ⟨(call_honours_iff plainVfs (fun _ => 0) hole_reached (.read 0 4)).mpr ha, ha⟩

/-- A read of the held descriptor 1 is refused: it is not below `length`. -/
theorem held_descriptor_refused :
    Reach (Step plainVfs) (empty (fun _ => 0)) holeHistory holeProcess ∧
      held holeHistory 1 = true ∧
      (call plainVfs holeProcess (.read 1 4)).1 = .rejected (-1) ∧
      ¬ Honours holeHistory (.read 1 4) (call plainVfs holeProcess (.read 1 4)).1 := by
  refine ⟨hole_reached, rfl, rfl, ?_⟩
  intro hh
  exact ((hh.2 1 rfl).1).mpr rfl

end Bingos.DescriptorTable
