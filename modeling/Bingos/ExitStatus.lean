import Bingos.SchedulerPlacement

set_option autoImplicit false

/-! The way of a status from `process_exit` to `sys_waitpid`. -/
namespace Bingos.Scheduler
open MachineWords StepRuns

def exits (s : Sched) : Event → List (ℕ × ℤ)
  | .exit ret => s.current.toList.map fun c => ((s.pcb c).id, ret)
  | _ => []

/-- The id that `sys_waitpid` was asked for and the status that it returns, when it releases a
process. -/
def collects (s : Sched) : Event → List (ℕ × ℤ)
  | .waitpid pid =>
    if pid < 0 then []
    else match s.finishedQueue.find? (fun p => (s.pcb p).id = pid.toNat) with
      | some p => if (s.pcb p).state = .finished then [(pid.toNat, (s.pcb p).status)] else []
      | none => []
  | _ => []

/-- The scheduler with the statuses that processes have exited with and those that have been
collected. -/
structure Traced where
  sched : Sched
  exited : List (ℕ × ℤ)
  collected : List (ℕ × ℤ)

def tracedStep (s : Traced) (e : Event) : Option Traced :=
  (yieldingStep s.sched e).map fun t =>
    ⟨t, s.exited ++ exits s.sched e, s.collected ++ collects s.sched e⟩

def TracedStep (s : Traced) (e : Event) (t : Traced) : Prop := tracedStep s e = some t

def report (s : Sched) (p : ℕ) : ℕ × ℤ := ((s.pcb p).id, (s.pcb p).status)

def reports (s : Sched) : List (ℕ × ℤ) := s.finishedQueue.map (report s)

section Steps
variable {s t : Sched}

theorem reports_congr (hf : t.finishedQueue = s.finishedQueue)
    (hr : ∀ p ∈ s.finishedQueue, report t p = report s p) : reports t = reports s := by
  rw [reports, hf]
  exact List.map_congr_left hr

theorem switchToNext_reports (h : switchToNext s = some t) : reports t = reports s := by
  obtain ⟨-, -, hf, hp, -⟩ := switchToNext_spec h
  exact reports_congr hf fun p _ => by rw [report, hp, report]

theorem contextSwitch_reports {reschedule : Bool} (h : contextSwitch s reschedule = some t) :
    reports t = reports s := by
  unfold contextSwitch at h
  split at h
  · cases h
    rfl
  · split_ifs at h
    · exact (switchToNext_reports h).trans rfl
    · exact switchToNext_reports h
    · cases h
      rfl

theorem Placed.finished_alone {p : ℕ} (h : Placed s) (hp : p ∈ s.finishedQueue) :
    p ∈ s.created ∧ p ∉ s.sleepQueue ∧ s.current ≠ some p := by
  have hone := h.once p
  have hpos := List.count_pos_iff.mpr hp
  rw [occurrences] at hone
  split_ifs at hone with hcreated
  · refine ⟨hcreated, fun hsleep => ?_, fun hcur => ?_⟩
    · have := List.count_pos_iff.mpr hsleep
      omega
    · rw [hcur, Option.toList_some, List.count_singleton_self] at hone
      omega
  · omega

theorem wakeupLoop_report (ticks subticks : ℕ) (l : List ℕ) (s : Sched) :
    (wakeupLoop ticks subticks l s).finishedQueue = s.finishedQueue ∧
      ∀ p ∉ l, report (wakeupLoop ticks subticks l s) p = report s p := by
  induction l generalizing s with
  | nil => exact ⟨rfl, fun _ _ => rfl⟩
  | cons q rest ih =>
    rw [wakeupLoop]
    split_ifs
    · obtain ⟨hf, hr⟩ := ih (schedEnqueue { s with
        pcb := Function.update s.pcb q { s.pcb q with endTick := 0, endSubtick := 0, status := 0 }
        sleepQueue := rest } q)
      refine ⟨hf, fun p hp => ?_⟩
      obtain ⟨hpq, hrest⟩ := not_or.mp (mt List.mem_cons.mpr hp)
      rw [hr p hrest]
      simp only [report, schedEnqueue, Function.update_of_ne hpq]
    · exact ⟨rfl, fun _ _ => rfl⟩

theorem Placed.tick_reports (h : Placed s) (ht : timerCallback s = some t) :
    reports t = reports s := by
  refine (contextSwitch_reports ht).trans ?_
  unfold timerWoken advance
  split_ifs <;> exact reports_congr (wakeupLoop_report _ _ s.sleepQueue _).1 fun p hp =>
    (wakeupLoop_report _ _ s.sleepQueue _).2 p (h.finished_alone hp).2.1

theorem sleepUntil_reports (c seconds subseconds : ℕ) :
    reports (processSleepUntil s c seconds subseconds) = reports s := by
  refine reports_congr rfl fun p _ => ?_
  by_cases hp : p = c <;> simp [report, processSleepUntil, sleepEnqueue, hp]

theorem Placed.fork_reports {child : ℕ} (h : Placed s) (ht : sysFork s child = some t) :
    reports t = reports s := by
  obtain ⟨u, hu, rfl⟩ := Option.map_eq_some_iff.mp ht
  unfold processCreate at hu
  split_ifs at hu with hnew
  cases hu
  refine reports_congr rfl fun p hp => ?_
  have hne : p ≠ child := fun he => hnew (he ▸ (h.finished_alone hp).1)
  simp [report, schedEnqueue, hne]

theorem Placed.exit_reports {ret : ℤ} (h : Placed s) (ht : processExit s ret = some t) :
    reports t = reports s ++ exits s (.exit ret) := by
  obtain ⟨c, hc, -, ht⟩ := processExit_cases ht
  obtain ⟨-, -, hf, hp, -⟩ := switchToNext_spec ht
  rw [reports, hf, exits, hc, schedEnqueueFinished, List.map_append]
  congr 1
  · apply List.map_congr_left
    intro p hmem
    have hne : p ≠ c := fun he => (h.finished_alone hmem).2.2 (he ▸ hc)
    simp [report, hp, schedEnqueueFinished, hne]
  · simp [report, hp, schedEnqueueFinished]

theorem Placed.waitpid_reports {pid : ℤ} (h : Placed s) (ht : sysWaitpid s pid = some t) :
    (reports s).Perm (collects s (.waitpid pid) ++ reports t) := by
  rcases sysWaitpid_cases ht with ⟨hneg, rfl⟩ | ⟨hpos, hnone, ht⟩ | ⟨hpos, q, hfind, hq⟩
  · rw [collects, if_pos hneg]
    rfl
  · rw [collects, if_neg (not_lt.mpr hpos), hnone, contextSwitch_reports ht]
    rfl
  · have hstate := h.finished q (List.mem_of_find?_eq_some hfind)
    have hreport : report s q = (pid.toNat, (s.pcb q).status) :=
      Prod.ext (by simpa [report] using List.find?_some hfind) rfl
    have hfirst : s.finishedQueue.Perm
        (q :: s.finishedQueue.eraseP fun p => (s.pcb p).id = pid.toNat) :=
      List.perm_iff_count.mpr fun p => by
        rw [count_eraseP hfind p, List.count_singleton, List.count_cons]
    obtain ⟨-, rfl⟩ | ⟨hne, -⟩ := hq
    · rw [collects, if_neg (not_lt.mpr hpos), hfind]
      dsimp only
      rw [if_pos hstate, ← hreport]
      exact hfirst.map (report s)
    · exact absurd hstate hne

end Steps

structure Conserved (s : Traced) : Prop where
  placed : Placed s.sched
  statuses : s.exited.Perm (s.collected ++ reports s.sched)

theorem Conserved.step {s t : Traced} {e : Event} (h : Conserved s) (hs : TracedStep s e t) :
    Conserved t := by
  obtain ⟨u, hu, rfl⟩ := Option.map_eq_some_iff.mp hs
  obtain ⟨hyields, hstep⟩ := yieldingStep_guarded _ _ _ hu
  refine ⟨h.placed.step hyields hstep, ?_⟩
  have hkeep : reports u = reports s.sched →
      (s.exited ++ []).Perm (s.collected ++ [] ++ reports u) := by
    intro hsame
    rw [hsame, List.append_nil, List.append_nil]
    exact h.statuses
  cases e with
  | tick => exact hkeep (h.placed.tick_reports hstep)
  | sleepUntil seconds subseconds =>
    obtain ⟨c, hc⟩ := Option.isSome_iff_exists.mp h.placed.running
    simp only [Step, Scheduler.step, hc] at hstep
    exact hkeep ((contextSwitch_reports hstep).trans (sleepUntil_reports c _ _))
  | listCreate =>
    cases hstep
    exact hkeep rfl
  | sleepOn queue =>
    change sleepOn s.sched queue = some u at hstep
    unfold sleepOn at hstep
    split at hstep
    · exact hkeep ((contextSwitch_reports hstep).trans rfl)
    · cases hstep
  | wakeupFrom queue =>
    change wakeupFrom s.sched queue = some u at hstep
    unfold wakeupFrom at hstep
    split at hstep
    · cases hstep
    · split at hstep <;> cases hstep <;> exact hkeep rfl
  | fork child => exact hkeep (h.placed.fork_reports hstep)
  | spawnTasklet child => exact hkeep (h.placed.fork_reports hstep)
  | exit ret =>
    have hmore := h.statuses.append_right (exits s.sched (.exit ret))
    rw [List.append_assoc, ← h.placed.exit_reports hstep] at hmore
    exact (List.append_nil s.collected).symm ▸ hmore
  | waitpid pid =>
    have hless := h.statuses.trans ((h.placed.waitpid_reports hstep).append_left s.collected)
    rw [← List.append_assoc] at hless
    exact (List.append_nil s.exited).symm ▸ hless

/-- No status is lost, changed or collected twice: those that processes have exited with are those
that `sys_waitpid` has returned to callers who asked for that process, and those of the processes
that are still in the queue. -/
theorem exit_statuses_are_collected {init ticks subticks : ℕ} {events : List Event} {s : Traced}
    (h : Reach TracedStep ⟨processInit init ticks subticks, [], []⟩ events s) :
    s.exited.Perm (s.collected ++ reports s.sched) :=
  (h.invariant (fun _ s => Conserved s) ⟨processInit_placed init ticks subticks, .nil⟩
    fun _ _ _ _ _ hi hs => hi.step hs).statuses

/-- A child exits, and the first process collects its status. -/
theorem exit_statuses_are_collected_child : ∃ s, Reach TracedStep ⟨processInit 10 0 0, [], []⟩
      [.fork 20, .tick, .exit 7, .waitpid 2] s ∧
    s.collected = [(2, 7)] ∧ s.exited.Perm (s.collected ++ reports s.sched) := by
  have hrun : (List.foldlM tracedStep ⟨processInit 10 0 0, [], []⟩
      [.fork 20, .tick, .exit 7, .waitpid 2]).map (fun s => s.collected) = some [(2, 7)] := by
    decide +kernel
  obtain ⟨s, hs, hcollected⟩ := Option.map_eq_some_iff.mp hrun
  have h : Reach TracedStep _ _ s := Reach.of_foldlM (fun _ _ _ hstep => hstep) hs
  exact ⟨s, h, hcollected, exit_statuses_are_collected h⟩

end Bingos.Scheduler
