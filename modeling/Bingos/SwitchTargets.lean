import Bingos.SchedulerPlacement

set_option autoImplicit false

/-! Where the scheduler calls `switch_to_next`, and when there is a process to
switch to. `context_switch` looks first; `process_exit` does not. -/
namespace Bingos.Scheduler
open MachineWords StepRuns

def contextSwitchPoint (s : Sched) (reschedule : Bool) : Option Sched :=
  match s.current with
  | none => none
  | some c =>
    if schedAvailable s then some (if reschedule then schedEnqueue s c else s) else none

/-- The state in which an event calls `switch_to_next`, and so
`sched_dequeue`, if it does. -/
def switchPoint (s : Sched) : Event → Option Sched
  | .tick => contextSwitchPoint (timerWoken s) true
  | .sleepUntil seconds subseconds =>
    s.current.bind fun c => contextSwitchPoint (processSleepUntil s c seconds subseconds) false
  | .sleepOn queue =>
    s.current.bind fun c => s.waitQueues[queue]?.bind fun w =>
      contextSwitchPoint { s with waitQueues := s.waitQueues.set queue (c :: w) } false
  | .exit ret =>
    s.current.bind fun c =>
      if (s.pcb c).id = 1 then none
      else some (schedEnqueueFinished { s with
        pcb := Function.update s.pcb c { s.pcb c with status := ret, state := .finished } } c)
  | .waitpid pid =>
    if pid < 0 then none
    else if (s.finishedQueue.find? fun p => (s.pcb p).id = pid.toNat).isSome then none
    else contextSwitchPoint s true
  | .listCreate | .wakeupFrom _ | .fork _ | .spawnTasklet _ => none

variable {e : Event} {s t u : Sched} {reschedule : Bool} {ret : ℤ}

theorem contextSwitch_eq_switchToNext (h : contextSwitchPoint s reschedule = some u) :
    contextSwitch s reschedule = switchToNext u := by
  unfold contextSwitchPoint at h
  unfold contextSwitch
  cases hc : s.current with
  | none => simp [hc] at h
  | some c =>
    simp only [hc] at h ⊢
    split_ifs at h ⊢ with hav
    all_goals rw [← Option.some.inj h]

theorem step_eq_switchToNext (h : switchPoint s e = some u) :
    step s e = switchToNext u := by
  cases e with
  | tick => exact contextSwitch_eq_switchToNext h
  | sleepUntil seconds subseconds =>
    obtain ⟨c, hc, h⟩ := Option.bind_eq_some_iff.mp h
    simp only [step, hc]
    exact contextSwitch_eq_switchToNext h
  | sleepOn queue =>
    obtain ⟨c, hc, h⟩ := Option.bind_eq_some_iff.mp h
    obtain ⟨w, hw, h⟩ := Option.bind_eq_some_iff.mp h
    simp only [hc] at h
    simp only [step, sleepOn, hc, hw]
    exact contextSwitch_eq_switchToNext h
  | exit ret =>
    obtain ⟨c, hc, h⟩ := Option.bind_eq_some_iff.mp h
    simp only [hc] at h
    simp only [step, processExit, hc]
    split_ifs at h ⊢
    rw [← Option.some.inj h]
  | waitpid pid =>
    simp only [switchPoint] at h
    split_ifs at h with hneg hfound
    simp only [step, sysWaitpid, if_neg hneg, Option.not_isSome_iff_eq_none.mp hfound]
    exact contextSwitch_eq_switchToNext h
  | listCreate | wakeupFrom _ | fork _ | spawnTasklet _ => cases h

/-- Wherever the event reaches `sched_dequeue`, the ready queue is not empty. -/
def Switchable (s : Sched) (e : Event) : Prop :=
  ∀ u, switchPoint s e = some u → u.processQueue ≠ []

theorem step_of_not_switchable (h : ¬Switchable s e) : step s e = none := by
  unfold Switchable at h
  push Not at h
  obtain ⟨u, hu, hempty⟩ := h
  rw [step_eq_switchToNext hu, switchToNext, hempty]
  rfl

theorem contextSwitchPoint_queue
    (h : contextSwitchPoint s reschedule = some u) : u.processQueue ≠ [] := by
  unfold contextSwitchPoint at h
  split at h
  · cases h
  · split_ifs at h with hav
    all_goals obtain rfl := Option.some.inj h
    · exact List.cons_ne_nil _ _
    · intro hempty
      simp [schedAvailable, hempty] at hav

def InitRuns (s : Sched) : Prop := ∃ c, s.current = some c ∧ (s.pcb c).id = 1

theorem exit_switchable_iff (hs : s.current.isSome) :
    Switchable s (.exit ret) ↔ InitRuns s ∨ s.processQueue ≠ [] := by
  obtain ⟨c, hc⟩ := Option.isSome_iff_exists.mp hs
  by_cases hid : (s.pcb c).id = 1
  · refine iff_of_true (fun u hu => ?_) (Or.inl ⟨c, hc, hid⟩)
    simp [switchPoint, hc, hid] at hu
  · have hno : ¬InitRuns s := by
      rintro ⟨c', hc', hid'⟩
      rw [Option.some.inj (hc.symm.trans hc')] at hid
      exact hid hid'
    simp only [Switchable, switchPoint, hc, Option.bind_some, if_neg hid, Option.some.injEq,
      forall_eq', hno, false_or]
    rfl

theorem switchable_of_not_exit (h : ∀ ret, e ≠ .exit ret) :
    Switchable s e := by
  intro u hu
  cases e with
  | tick => exact contextSwitchPoint_queue hu
  | sleepUntil seconds subseconds =>
    obtain ⟨c, _, hu⟩ := Option.bind_eq_some_iff.mp hu
    exact contextSwitchPoint_queue hu
  | sleepOn queue =>
    obtain ⟨c, _, hu⟩ := Option.bind_eq_some_iff.mp hu
    obtain ⟨w, _, hu⟩ := Option.bind_eq_some_iff.mp hu
    exact contextSwitchPoint_queue hu
  | exit ret => exact absurd rfl (h ret)
  | waitpid pid =>
    simp only [switchPoint] at hu
    split_ifs at hu
    exact contextSwitchPoint_queue hu
  | listCreate | wakeupFrom _ | fork _ | spawnTasklet _ => cases hu

/-- Some process in use other than the running one is neither asleep, nor
waiting on a queue, nor finished. -/
def Spare (s : Sched) : Prop :=
  ∃ p ∈ s.created, s.current ≠ some p ∧ p ∉ s.sleepQueue ∧ (∀ w ∈ s.waitQueues, p ∉ w) ∧
    p ∉ s.finishedQueue

def Spared (s : Sched) : Event → Prop
  | .exit _ => InitRuns s ∨ Spare s
  | _ => True

def active (s : Sched) (p : ℕ) : ℕ :=
  s.current.toList.count p + s.processQueue.count p + s.sleepQueue.count p +
    (s.waitQueues.map (List.count p)).sum

theorem occurrences_eq_active (s : Sched) (p : ℕ) :
    occurrences s p = active s p + s.finishedQueue.count p := rfl

theorem Shuffles.active_eq (h : Shuffles s t) (p : ℕ) : active t p = active s p := by
  have ho := h.occurs p
  rw [occurrences_eq_active, occurrences_eq_active, h.finishedQueue] at ho
  omega

/-- No process in use is lost: a finished one waits to be collected, and every
other one has a place. This survives sleeps without another ready process. -/
structure Accounted (s : Sched) : Prop where
  running : s.current.isSome
  held : ∀ p ∈ s.created,
    (s.pcb p).state = .finished ∧ p ∈ s.finishedQueue ∨ 0 < active s p

theorem Accounted.shuffle (h : Accounted s) (hst : Shuffles s t) : Accounted t := by
  refine ⟨hst.running, fun p hp => ?_⟩
  rw [hst.state, hst.finishedQueue, hst.active_eq]
  exact h.held p (hst.created ▸ hp)

theorem Accounted.parks {c : ℕ} (h : Accounted s) (hu : Parks s u c)
    (ht : contextSwitch u false = some t) : Accounted t := by
  by_cases hq : s.processQueue = []
  · rw [hu.stay hq ht]
    refine ⟨by rw [hu.current]; rfl, fun p hp => ?_⟩
    rw [hu.state, hu.finishedQueue]
    refine (h.held p (hu.created ▸ hp)).imp_right fun hpos => ?_
    have ho := hu.occurs p
    rw [occurrences_eq_active, occurrences_eq_active, hu.finishedQueue] at ho
    omega
  · exact h.shuffle (hu.switch hq ht)

theorem Accounted.fork {child : ℕ} (h : Accounted s) (ht : sysFork s child = some t) :
    Accounted t := by
  obtain ⟨u, hu, rfl⟩ := Option.map_eq_some_iff.mp ht
  unfold processCreate at hu
  split_ifs at hu with hnew
  obtain rfl := Option.some.inj hu
  refine ⟨h.running, fun p hp => ?_⟩
  by_cases hpc : p = child
  · refine Or.inr ?_
    subst hpc
    simp only [active, schedEnqueue, List.count_cons_self]
    omega
  · have hold := h.held p ((Finset.mem_insert.mp hp).resolve_left hpc)
    change (Function.update s.pcb child _ p).state = .finished ∧ p ∈ s.finishedQueue ∨ _
    rw [Function.update_of_ne hpc]
    refine hold.imp_right fun hpos => ?_
    simp only [active, schedEnqueue, List.count_cons] at hpos ⊢
    omega

theorem Accounted.exit (h : Accounted s) (ht : processExit s ret = some t) : Accounted t := by
  obtain ⟨c, hc, -, ht⟩ := processExit_cases ht
  obtain ⟨hr, hcr, hf, hp, hocc⟩ := switchToNext_spec ht
  refine ⟨hr, fun p hpt => ?_⟩
  rw [hp, hf]
  by_cases hpc : p = c
  · subst hpc
    exact Or.inl ⟨by simp [schedEnqueueFinished], by simp [schedEnqueueFinished]⟩
  · have hold := h.held p (by rw [hcr] at hpt; exact hpt)
    have ho := hocc p
    rw [occurrences_eq_active, occurrences_eq_active, hf] at ho
    have hz : [c].count p = 0 := List.count_eq_zero.mpr (by simpa using hpc)
    simp only [schedEnqueueFinished, active, hc, Option.toList_some, hz,
      Function.update_of_ne hpc, List.mem_append] at ho hold ⊢
    refine hold.imp (fun hfin => ⟨hfin.1, Or.inl hfin.2⟩) fun hpos => ?_
    omega

theorem Accounted.waitpid {pid : ℤ} (h : Accounted s)
    (ht : sysWaitpid s pid = some t) : Accounted t := by
  rcases sysWaitpid_cases ht with ⟨-, rfl⟩ | ⟨-, -, ht⟩ | ⟨-, q, hfind, hrest⟩
  · exact h
  · exact h.shuffle (contextSwitch_reschedule h.running ht)
  · have hkeep : ∀ p ≠ q, p ∈ s.finishedQueue →
        p ∈ s.finishedQueue.eraseP fun r => (s.pcb r).id = pid.toNat := by
      intro p hpq hp
      have hc := count_eraseP hfind p
      have hz : [q].count p = 0 := List.count_eq_zero.mpr (by simpa using hpq)
      have hpos := List.count_pos_iff.mpr hp
      exact List.count_pos_iff.mp (by omega)
    rcases hrest with ⟨-, rfl⟩ | ⟨hfin, rfl⟩
    · refine ⟨h.running, fun p hp => ?_⟩
      obtain ⟨hpq, hp⟩ := Finset.mem_erase.mp hp
      exact (h.held p hp).imp_left fun ⟨hst, hmem⟩ => ⟨hst, hkeep p hpq hmem⟩
    · refine ⟨h.running, fun p hp => ?_⟩
      refine (h.held p hp).imp_left fun ⟨hst, hmem⟩ => ⟨hst, hkeep p ?_ hmem⟩
      rintro rfl
      exact hfin hst

theorem Accounted.step (h : Accounted s) (hs : Step s e t) : Accounted t := by
  cases Step.moves h.running hs with
  | shuffle hst => exact h.shuffle hst
  | park _ hu ht => exact h.parks hu ht
  | fork ht => exact h.fork ht
  | exit ht => exact h.exit ht
  | waitpid ht => exact h.waitpid ht

theorem processInit_accounted (init ticks subticks : ℕ) :
    Accounted (processInit init ticks subticks) := by
  refine ⟨rfl, fun p hp => Or.inr ?_⟩
  obtain rfl := Finset.mem_singleton.mp hp
  simp [active, processInit]

theorem Accounted.processQueue_ne_nil (h : Accounted s) (hspare : Spare s) :
    s.processQueue ≠ [] := by
  obtain ⟨p, hp, hcur, hsleep, hwait, hfin⟩ := hspare
  have hpos := (h.held p hp).resolve_left fun hf => hfin hf.2
  have hc : s.current.toList.count p = 0 :=
    List.count_eq_zero.mpr fun hmem => hcur (Option.mem_toList.mp hmem)
  have hw : (s.waitQueues.map (List.count p)).sum = 0 := by
    refine List.sum_eq_zero fun n hn => ?_
    obtain ⟨w, hw, rfl⟩ := List.mem_map.mp hn
    exact List.count_eq_zero.mpr (hwait w hw)
  rw [active, hc, hw, List.count_eq_zero.mpr hsleep] at hpos
  intro hempty
  simp [hempty] at hpos

theorem Placed.spare (h : Placed s) (hq : s.processQueue ≠ []) : Spare s := by
  obtain ⟨p, hp⟩ := List.exists_mem_of_ne_nil _ hq
  have hpos := List.count_pos_iff.mpr hp
  have hone := h.once p
  have hcreated : p ∈ s.created := by
    by_contra hno
    rw [if_neg hno] at hone
    simp only [occurrences] at hone
    omega
  rw [if_pos hcreated, occurrences] at hone
  have hsum : (s.waitQueues.map (List.count p)).sum = 0 := by omega
  refine ⟨p, hcreated, fun hc => ?_, List.count_eq_zero.mp (by omega), fun w hw => ?_,
    List.count_eq_zero.mp (by omega)⟩
  · rw [hc, Option.toList_some, List.count_singleton_self] at hone
    omega
  · refine List.count_eq_zero.mp ?_
    exact List.sum_eq_zero_iff.mp hsum _ (List.mem_map.mpr ⟨w, hw, rfl⟩)

/-- In every state reached, an event finds a process to switch to if, for an
exit, another process can run; and where no process ever slept without another
ready one, only if. -/
theorem switch_finds_process {init ticks subticks : ℕ} {events : List Event} {s : Sched}
    (h : Reach Step (processInit init ticks subticks) events s) (e : Event) :
    (Spared s e → Switchable s e) ∧
      (Reach (Guarded Yields Step) (processInit init ticks subticks) events s →
        (Switchable s e ↔ Spared s e)) := by
  have hacc : Accounted s := h.invariant (fun _ s => Accounted s)
    (processInit_accounted init ticks subticks) (fun _ _ _ _ _ hi hs => hi.step hs)
  have hsafe : Spared s e → Switchable s e := by
    intro hsp
    cases e with
    | exit ret =>
      exact (exit_switchable_iff hacc.running).mpr (hsp.imp_right hacc.processQueue_ne_nil)
    | _ => exact switchable_of_not_exit (by simp)
  refine ⟨hsafe, fun hy => ⟨fun hsw => ?_, hsafe⟩⟩
  have hp : Placed s := hy.invariant (fun _ s => Placed s)
    (processInit_placed init ticks subticks) (fun _ _ _ _ _ hi hs => hi.step hs.1 hs.2)
  cases e with
  | exit ret => exact ((exit_switchable_iff hacc.running).mp hsw).imp_right hp.spare
  | _ => trivial

/-- The first process forks two children and waits; one of them exits. -/
theorem switch_finds_process_sibling : ∃ s,
    Reach Step (processInit 10 0 0) [.listCreate, .fork 20, .fork 30, .sleepOn 0] s ∧
      s.current = some 20 ∧ Spared s (.exit 0) ∧ Switchable s (.exit 0) := by
  have hrun : (List.foldlM step (processInit 10 0 0)
      [.listCreate, .fork 20, .fork 30, .sleepOn 0]).map (fun s => decide (s.current = some 20 ∧
        30 ∈ s.created ∧ s.current ≠ some 30 ∧ 30 ∉ s.sleepQueue ∧ (∀ w ∈ s.waitQueues, 30 ∉ w) ∧
        30 ∉ s.finishedQueue)) = some true := by decide +kernel
  obtain ⟨s, hs, hfacts⟩ := Option.map_eq_some_iff.mp hrun
  obtain ⟨hcurrent, hspare⟩ := of_decide_eq_true hfacts
  have h := Reach.of_foldlM (fun _ _ _ hstep => hstep) hs
  have hspared : Spared s (.exit 0) := Or.inr ⟨30, hspare⟩
  exact ⟨s, h, hcurrent, hspared, (switch_finds_process h (.exit 0)).1 hspared⟩

/-- The first process forks a child and waits; the child exits and there is
nothing to switch to. -/
theorem last_runnable_process_exits : ∃ s,
    Reach (Guarded Yields Step) (processInit 10 0 0) [.listCreate, .fork 20, .sleepOn 0] s ∧
      s.current = some 20 ∧ (s.pcb 20).id = 2 ∧ ¬Switchable s (.exit 0) ∧
      step s (.exit 0) = none := by
  have hrun : (List.foldlM yieldingStep (processInit 10 0 0)
      [.listCreate, .fork 20, .sleepOn 0]).map (fun s => decide (s.current = some 20 ∧
        (s.pcb 20).id = 2 ∧ (switchPoint s (.exit 0)).map (·.processQueue) = some [])) =
        some true := by decide +kernel
  obtain ⟨s, hs, hfacts⟩ := Option.map_eq_some_iff.mp hrun
  obtain ⟨hcurrent, hid, hqueue⟩ := of_decide_eq_true hfacts
  obtain ⟨u, hu, hempty⟩ := Option.map_eq_some_iff.mp hqueue
  have hstuck : ¬Switchable s (.exit 0) := fun hsw => hsw u hu hempty
  exact ⟨s, Reach.of_foldlM yieldingStep_guarded hs, hcurrent, hid, hstuck,
    step_of_not_switchable hstuck⟩

end Bingos.Scheduler
