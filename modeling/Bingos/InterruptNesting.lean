import Mathlib

set_option autoImplicit false

/-! Critical sections of `irq.c`: pairs of `interrupt_disable` and
`interrupt_resume` around each other and around hardware interrupts, with one
counter for the nesting and for the question whether the outermost pair found
interrupts enabled. -/
namespace Bingos.Interrupts

structure Cpu where
  flag : Bool
  syncDepth : BitVec 32
deriving DecidableEq

def interruptEnable (_ : Cpu) : Cpu := ⟨true, 0⟩

def interruptDisable (s : Cpu) : Cpu :=
  if s.flag then ⟨false, 1⟩ else ⟨false, s.syncDepth + 1⟩

def interruptResume (s : Cpu) : Cpu :=
  if s.syncDepth = 0 ∨ s.syncDepth = 1 then { s with flag := true }
  else { s with syncDepth := s.syncDepth - 1 }

def registerInterruptHandler (s : Cpu) : Cpu := { s with flag := true }

/-- Kernel code as far as it touches the flag: pairs with what runs between
them, hardware interrupts that arrive at that point, and, outside all pairs,
the calls without a partner and the system calls. The body of an interrupt is
what its handlers run inside `irq_handler`; the tail is the stub's way to
`iret`, where further interrupts may arrive. -/
inductive Code : Bool → Type where
  | done {outer : Bool} : Code outer
  | pair {outer : Bool} (body : Code false) (rest : Code outer) : Code outer
  | irq {outer : Bool} (body tail : Code false) (rest : Code outer) : Code outer
  | enable (rest : Code true) : Code true
  | disable (rest : Code true) : Code true
  | register (rest : Code true) : Code true
  | trap (body rest : Code true) : Code true

/-- An interrupt is taken if the flag is set; its entry clears the flag, and
`iret` restores it. A system call clears and restores it whatever it was. -/
def run : {outer : Bool} → Code outer → Cpu → Cpu
  | _, .done, s => s
  | _, .pair body rest, s => run rest (interruptResume (run body (interruptDisable s)))
  | _, .irq body tail rest, s =>
    if s.flag then
      run rest { run tail (interruptResume (run body (interruptDisable { s with flag := false })))
        with flag := true }
    else run rest s
  | _, .enable rest, s => run rest (interruptEnable s)
  | _, .disable rest, s => run rest (interruptDisable s)
  | _, .register rest, s => run rest (registerInterruptHandler s)
  | _, .trap body rest, s => run rest { run body { s with flag := false } with flag := s.flag }

/-- A completed pair: the state just before its `interrupt_disable` and the
flag just after its `interrupt_resume`. -/
structure Pairing where
  before : Cpu
  after : Bool
deriving DecidableEq

/-- The pairs a run completes; that of an interrupt is the one in
`irq_handler`. -/
def pairings : {outer : Bool} → Code outer → Cpu → List Pairing
  | _, .done, _ => []
  | _, .pair body rest, s =>
    pairings body (interruptDisable s) ++
      ⟨s, (interruptResume (run body (interruptDisable s))).flag⟩ ::
        pairings rest (interruptResume (run body (interruptDisable s)))
  | _, .irq body tail rest, s =>
    if s.flag then
      let entry : Cpu := { s with flag := false }
      let handled := interruptResume (run body (interruptDisable entry))
      pairings body (interruptDisable entry) ++ ⟨entry, handled.flag⟩ ::
        (pairings tail handled ++ pairings rest { run tail handled with flag := true })
    else pairings rest s
  | _, .enable rest, s => pairings rest (interruptEnable s)
  | _, .disable rest, s => pairings rest (interruptDisable s)
  | _, .register rest, s => pairings rest (registerInterruptHandler s)
  | _, .trap body rest, s =>
    pairings body { s with flag := false } ++
      pairings rest { run body { s with flag := false } with flag := s.flag }

def Restored (p : Pairing) : Prop := p.after = p.before.flag

def Counted (s : Cpu) : Prop := s.flag = true ∨ s.syncDepth ≠ 0 ∧ s.syncDepth ≠ -1

instance (p : Pairing) : Decidable (Restored p) := inferInstanceAs (Decidable (_ = _))

instance (s : Cpu) : Decidable (Counted s) := inferInstanceAs (Decidable (_ ∨ _))

@[simp] theorem interruptDisable_flag (s : Cpu) : (interruptDisable s).flag = false := by
  unfold interruptDisable
  split <;> rfl

variable {body : Code false} {s : Cpu}

theorem resume_disable_of_counted (h : Counted s) (hflag : s.flag = false) :
    interruptResume (interruptDisable s) = s := by
  obtain ⟨flag, d⟩ := s
  obtain rfl : flag = false := hflag
  have hd : d ≠ 0 ∧ d ≠ -1 := h.resolve_left (by simp)
  have hne : ¬(d + 1 = 0 ∨ d + 1 = 1) := by bv_omega
  simp only [interruptDisable, interruptResume, Bool.false_eq_true, if_false, if_neg hne]
  simp

theorem resume_disable_flag_iff (s : Cpu) :
    (interruptResume (interruptDisable s)).flag = s.flag ↔ Counted s := by
  obtain ⟨flag, d⟩ := s
  cases flag with
  | true => simp [interruptDisable, interruptResume, Counted]
  | false =>
    constructor
    · intro h
      refine Or.inr ?_
      by_contra hd
      have hone : d + 1 = 0 ∨ d + 1 = 1 := by
        simp only at hd
        bv_omega
      simp only [interruptDisable, interruptResume, Bool.false_eq_true, if_false, if_pos hone] at h
      cases h
    · intro h
      rw [resume_disable_of_counted h rfl]

/-- With the flag clear, counted pairs leave everything as it was: no
interrupt arrives, and the counter comes back. -/
theorem run_of_counted : ∀ (c : Code false) (s : Cpu), s.flag = false →
    (∀ p ∈ pairings c s, Counted p.before) → run c s = s
  | .done, _, _, _ => rfl
  | .pair body rest, s, hflag, h => by
    simp only [pairings, List.mem_append, List.mem_cons] at h
    have hbody : run body (interruptDisable s) = interruptDisable s :=
      run_of_counted body _ (by simp) fun p hp => h p (Or.inl hp)
    have hpair : interruptResume (run body (interruptDisable s)) = s := by
      rw [hbody]
      exact resume_disable_of_counted (h _ (Or.inr (Or.inl rfl))) hflag
    simp only [hpair] at h
    rw [run, hpair]
    exact run_of_counted rest s hflag fun p hp => h p (Or.inr (Or.inr hp))
  | .irq body tail rest, s, hflag, h => by
    simp only [pairings, run, hflag, Bool.false_eq_true, if_false] at h ⊢
    exact run_of_counted rest s hflag h

theorem run_body_of_counted (h : ∀ p ∈ pairings body (interruptDisable s), Counted p.before) :
    run body (interruptDisable s) = interruptDisable s :=
  run_of_counted body _ (interruptDisable_flag s) h

theorem forall_pair_iff {tail : List Pairing}
    (hbody : (∀ p ∈ pairings body (interruptDisable s), Restored p) ↔
      ∀ p ∈ pairings body (interruptDisable s), Counted p.before)
    (htail : (∀ p ∈ tail, Restored p) ↔ ∀ p ∈ tail, Counted p.before) :
    (∀ p ∈ pairings body (interruptDisable s) ++
        ⟨s, (interruptResume (run body (interruptDisable s))).flag⟩ :: tail, Restored p) ↔
      ∀ p ∈ pairings body (interruptDisable s) ++
        ⟨s, (interruptResume (run body (interruptDisable s))).flag⟩ :: tail, Counted p.before := by
  simp only [List.forall_mem_append, List.forall_mem_cons, hbody, htail]
  refine and_congr_right fun hcounted => and_congr_left fun _ => ?_
  rw [Restored, run_body_of_counted hcounted]
  exact resume_disable_flag_iff s

/-- In every run, each `interrupt_resume` leaves the flag as it was before its
`interrupt_disable` if and only if each of these is executed with the flag set
or the counter nonzero. -/
theorem pairings_restored_iff {outer : Bool} (c : Code outer) (s : Cpu) :
    (∀ p ∈ pairings c s, Restored p) ↔ ∀ p ∈ pairings c s, Counted p.before := by
  induction c generalizing s with
  | done => simp [pairings]
  | pair body rest ihbody ihrest => exact forall_pair_iff (ihbody _) (ihrest _)
  | irq body tail rest ihbody ihtail ihrest =>
    rw [pairings]
    split_ifs with hflag
    · refine forall_pair_iff (ihbody _) ?_
      rw [List.forall_mem_append, List.forall_mem_append, ihtail, ihrest]
    · exact ihrest s
  | enable rest ih => exact ih _
  | disable rest ih => exact ih _
  | register rest ih => exact ih _
  | trap body rest ihbody ihrest =>
    rw [pairings, List.forall_mem_append, List.forall_mem_append, ihbody, ihrest]

/-- The state at boot: interrupts off, the counter zero. An interrupt right
after `interrupt_enable` finds the counter at zero, and its handler returns to
the stub with interrupts enabled. -/
theorem irq_after_enable_not_restored :
    pairings (.enable (.irq .done .done .done)) ⟨false, 0⟩ = [⟨⟨false, 0⟩, true⟩] ∧
      ¬∀ p ∈ pairings (.enable (.irq .done .done .done)) ⟨false, 0⟩, Restored p := by
  decide +kernel

end Bingos.Interrupts
