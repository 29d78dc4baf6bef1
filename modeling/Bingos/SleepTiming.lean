import Bingos.SleepOrder

set_option autoImplicit false

/-! When a sleeper is woken. The clock counts subticks, a thousand to a tick,
and `relative_time` adds a request to it with a carry. -/
namespace Bingos.Scheduler
open MachineWords StepRuns StableQueues

def clock (s : Sched) : ℕ := 1000 * s.timerTicks + s.timerSubticks

/-- The reading of the clock at which a deadline has passed; no reading has
more than 999 subticks. -/
def passing (d : ℕ ×ₗ ℕ) : ℕ := 1000 * (ofLex d).1 + min (ofLex d).2 1000

variable {events : List Event} {queue subticks : ℕ}

theorem le_now_iff {d : ℕ ×ₗ ℕ} {ticks : ℕ} (h : subticks < 1000) :
    d ≤ toLex (ticks, subticks) ↔ passing d ≤ 1000 * ticks + subticks := by
  rw [Prod.Lex.le_iff]
  simp only [passing, ofLex_toLex]
  omega

variable {s t : Sched} {p seconds subseconds : ℕ}

theorem advance_clock (hsub : s.timerSubticks < 1000) (hwrap : clock s + 1 < 1000 * 2 ^ 32) :
    clock (advance s) = clock s + 1 ∧ (advance s).timerSubticks < 1000 := by
  have hadd : add32 s.timerSubticks 1 = s.timerSubticks + 1 := add32_of_lt (by omega)
  unfold clock at hwrap
  simp only [advance, hadd, subticksPerTick, clock]
  split_ifs with hfull
  · have htick : add32 s.timerTicks 1 = s.timerTicks + 1 := add32_of_lt (by omega)
    simp only [htick]
    omega
  · simp only
    omega

theorem advance_sleepers (s : Sched) :
    (advance s).sleepQueue = s.sleepQueue ∧ (advance s).pcb = s.pcb ∧
      (advance s).current = s.current ∧ (advance s).processQueue = s.processQueue := by
  unfold advance
  split_ifs <;> exact ⟨rfl, rfl, rfl, rfl⟩

def now (s : Sched) : ℕ ×ₗ ℕ := toLex ((advance s).timerTicks, (advance s).timerSubticks)

theorem timerWoken_eq (h : s.sleepQueue.Nodup) :
    timerWoken s = { advance s with
      sleepQueue := beyond (deadlines s) (now s) s.sleepQueue
      processQueue := (upTo (deadlines s) (now s) s.sleepQueue).reverse ++ s.processQueue
      pcb := awaken (upTo (deadlines s) (now s) s.sleepQueue) s.pcb } := by
  obtain ⟨hq, hp, _, hr⟩ := advance_sleepers s
  have hkey : deadlines (advance s) = deadlines s := by
    funext q
    simp only [deadlines, hp]
  rw [timerWoken, processWakeupSleepers, hq, wakeupLoop_eq _ _ h, hkey, hp, hr]
  rfl

structure Rests (s t : Sched) : Prop where
  sleepQueue : t.sleepQueue = s.sleepQueue
  deadlines : ∀ p ∈ s.sleepQueue, deadlines t p = deadlines s p
  ticks : t.timerTicks = s.timerTicks
  subticks : t.timerSubticks = s.timerSubticks

theorem switchToNext_rests (h : switchToNext s = some t) : Rests s t := by
  unfold switchToNext at h
  split at h
  · obtain rfl := Option.some.inj h
    exact ⟨rfl, fun _ _ => rfl, rfl, rfl⟩
  · cases h

theorem contextSwitch_rests {reschedule : Bool}
    (h : contextSwitch s reschedule = some t) : Rests s t := by
  unfold contextSwitch at h
  split at h
  · obtain rfl := Option.some.inj h
    exact ⟨rfl, fun _ _ => rfl, rfl, rfl⟩
  · split_ifs at h
    · have hr := switchToNext_rests h
      exact ⟨hr.sleepQueue, hr.deadlines, hr.ticks, hr.subticks⟩
    · exact switchToNext_rests h
    · obtain rfl := Option.some.inj h
      exact ⟨rfl, fun _ _ => rfl, rfl, rfl⟩

theorem fork_rests {child : ℕ} (h : child ∉ s.sleepQueue)
    (ht : sysFork s child = some t) : Rests s t := by
  obtain ⟨u, hu, rfl⟩ := Option.map_eq_some_iff.mp ht
  unfold processCreate at hu
  split_ifs at hu
  obtain rfl := Option.some.inj hu
  refine ⟨rfl, fun p hp => ?_, rfl, rfl⟩
  have hne : p ≠ child := fun heq => h (heq ▸ hp)
  simp [deadlines, schedEnqueue, hne]

theorem exit_rests {ret : ℤ} (ht : processExit s ret = some t) : Rests s t := by
  obtain ⟨c, -, -, ht⟩ := processExit_cases ht
  have hr := switchToNext_rests ht
  refine ⟨hr.sleepQueue, fun p hp => (hr.deadlines p hp).trans ?_, hr.ticks, hr.subticks⟩
  by_cases hpc : p = c
  · subst hpc
    simp [deadlines, deadline, schedEnqueueFinished]
  · simp [deadlines, schedEnqueueFinished, hpc]

theorem waitpid_rests {pid : ℤ} (ht : sysWaitpid s pid = some t) : Rests s t := by
  rcases sysWaitpid_cases ht with ⟨-, rfl⟩ | ⟨-, -, ht⟩ | ⟨-, q, -, ⟨-, rfl⟩ | ⟨-, rfl⟩⟩
  · exact ⟨rfl, fun _ _ => rfl, rfl, rfl⟩
  · exact contextSwitch_rests ht
  · exact ⟨rfl, fun _ _ => rfl, rfl, rfl⟩
  · exact ⟨rfl, fun _ _ => rfl, rfl, rfl⟩

theorem wakeupFrom_rests (ht : wakeupFrom s queue = some t) :
    Rests s t := by
  unfold wakeupFrom at ht
  split at ht
  · cases ht
  · split at ht
    all_goals
      obtain rfl := Option.some.inj ht
      exact ⟨rfl, fun _ _ => rfl, rfl, rfl⟩

theorem sleepOn_rests (ht : sleepOn s queue = some t) : Rests s t := by
  unfold sleepOn at ht
  split at ht
  · have hr := contextSwitch_rests ht
    exact ⟨hr.sleepQueue, hr.deadlines, hr.ticks, hr.subticks⟩
  · cases ht

/-- The sleepers are distinct and in the order of their deadlines, and the
clock is normal. -/
structure Timed (s : Sched) : Prop where
  nodup : s.sleepQueue.Nodup
  sorted : Sorted (deadlines s) s.sleepQueue
  subticks : s.timerSubticks < 1000

theorem processInit_timed {init ticks : ℕ} (h : subticks < 1000) :
    Timed (processInit init ticks subticks) :=
  ⟨List.nodup_nil, List.Pairwise.nil, h⟩

/-- The clock does not wrap, and a process in the sleep queue neither goes to
sleep a second time nor has its control block reused. -/
def Punctual (s : Sched) : Event → Prop
  | .tick => clock s + 1 < 1000 * 2 ^ 32
  | .sleepUntil _ _ => ∀ c, s.current = some c → c ∉ s.sleepQueue
  | .fork child | .spawnTasklet child => child ∉ s.sleepQueue
  | _ => True

/-- A step keeps the order, and the deadline of every process it leaves asleep. -/
structure Keeps (s t : Sched) : Prop where
  timed : Timed t
  deadlines : ∀ p ∈ s.sleepQueue, p ∈ t.sleepQueue → deadlines t p = deadlines s p

theorem Timed.rests (h : Timed s) (hr : Rests s t) : Timed t := by
  refine ⟨?_, ?_, hr.subticks ▸ h.subticks⟩
  · rw [hr.sleepQueue]
    exact h.nodup
  · rw [hr.sleepQueue]
    exact h.sorted.congr hr.deadlines

theorem Timed.keeps_of_rests (h : Timed s) (hr : Rests s t) : Keeps s t :=
  ⟨h.rests hr, fun p hp _ => hr.deadlines p hp⟩

theorem mem_timerWoken_iff (h : Timed s) :
    p ∈ (timerWoken s).sleepQueue ↔ p ∈ s.sleepQueue ∧ ¬deadlines s p ≤ now s := by
  rw [timerWoken_eq h.nodup, mem_beyond_iff h.sorted, not_le]

theorem Timed.tick (h : Timed s) (hwrap : clock s + 1 < 1000 * 2 ^ 32)
    (hs : timerCallback s = some t) :
    Keeps s t ∧ t.sleepQueue = (timerWoken s).sleepQueue ∧ clock t = clock s + 1 := by
  have hr : Rests (timerWoken s) t := contextSwitch_rests hs
  have hadv := advance_clock h.subticks hwrap
  have hkey : ∀ p ∈ (timerWoken s).sleepQueue, deadlines (timerWoken s) p = deadlines s p := by
    intro p hp
    have hlate := (mem_timerWoken_iff h).mp hp
    rw [deadlines, timerWoken_eq h.nodup]
    exact deadlines_awaken fun hmem => hlate.2 (le_of_mem_upTo hmem)
  have hclock : clock (timerWoken s) = clock (advance s) ∧
      (timerWoken s).timerSubticks = (advance s).timerSubticks := by
    rw [timerWoken_eq h.nodup]
    exact ⟨rfl, rfl⟩
  have hsub : (timerWoken s).sleepQueue.Sublist s.sleepQueue := by
    rw [timerWoken_eq h.nodup]
    exact List.dropWhile_sublist _
  have hwoken : Timed (timerWoken s) :=
    ⟨h.nodup.sublist hsub, (h.sorted.sublist hsub).congr hkey, hclock.2 ▸ hadv.2⟩
  refine ⟨⟨hwoken.rests hr, fun p _ hpt => ?_⟩, hr.sleepQueue, ?_⟩
  · rw [hr.sleepQueue] at hpt
    rw [hr.deadlines p hpt, hkey p hpt]
  · rw [clock, hr.ticks, hr.subticks]
    exact hclock.1.trans hadv.1

theorem Timed.sleepUntil {c : ℕ} (h : Timed s) (hc : s.current = some c) (hnot : c ∉ s.sleepQueue)
    (hs : Step s (.sleepUntil seconds subseconds) t) :
    Keeps s t ∧ Rests (processSleepUntil s c seconds subseconds) t := by
  simp only [Step, step, hc] at hs
  have hr : Rests (processSleepUntil s c seconds subseconds) t := contextSwitch_rests hs
  have hnodup : (processSleepUntil s c seconds subseconds).sleepQueue.Nodup := by
    rw [processSleepUntil, sleepEnqueue_sleepQueue _ _ hnot, (insert_perm c).nodup_iff]
    exact List.nodup_cons.mpr ⟨hnot, h.nodup⟩
  have hqueued : Timed (processSleepUntil s c seconds subseconds) :=
    ⟨hnodup, sleepEnqueue_sorted _ _ h.sorted hnot, h.subticks⟩
  refine ⟨⟨hqueued.rests hr, fun p hp hpt => ?_⟩, hr⟩
  rw [hr.sleepQueue] at hpt
  rw [hr.deadlines p hpt]
  exact deadlines_sleepEnqueue_of_ne _ _ fun heq => hnot (heq ▸ hp)

theorem Timed.keeps {e : Event} (h : Timed s) (hg : Punctual s e)
    (hs : Step s e t) : Keeps s t := by
  cases e with
  | tick => exact (h.tick hg hs).1
  | sleepUntil seconds subseconds =>
    cases hc : s.current with
    | none => simp [Step, Scheduler.step, hc] at hs
    | some c => exact (h.sleepUntil hc (hg c hc) hs).1
  | listCreate =>
    obtain rfl := Option.some.inj hs
    exact h.keeps_of_rests ⟨rfl, fun _ _ => rfl, rfl, rfl⟩
  | sleepOn queue => exact h.keeps_of_rests (sleepOn_rests hs)
  | wakeupFrom queue => exact h.keeps_of_rests (wakeupFrom_rests hs)
  | fork child => exact h.keeps_of_rests (fork_rests hg hs)
  | spawnTasklet child => exact h.keeps_of_rests (fork_rests hg hs)
  | exit ret => exact h.keeps_of_rests (exit_rests hs)
  | waitpid pid => exact h.keeps_of_rests (waitpid_rests hs)

theorem Timed.reach (h : Timed s) (ht : Reach (Guarded Punctual Step) s events t) : Timed t :=
  ht.invariant (fun _ t => Timed t) h fun _ _ _ _ _ hi hs => (hi.keeps hs.1 hs.2).timed

def Wakes (s : Sched) (p : ℕ) : Prop :=
  p ∈ s.sleepQueue ∧ p ∉ (timerWoken s).sleepQueue ∧ p ∈ (timerWoken s).processQueue

theorem Timed.wakes_iff (h : Timed s) (hp : p ∈ s.sleepQueue)
    (hwrap : clock s + 1 < 1000 * 2 ^ 32) :
    Wakes s p ↔ passing (deadlines s p) ≤ clock s + 1 := by
  have hadv := advance_clock h.subticks hwrap
  rw [← hadv.1, clock, ← le_now_iff hadv.2]
  constructor
  · rintro ⟨_, hgone, _⟩
    by_contra hlate
    exact hgone ((mem_timerWoken_iff h).mpr ⟨hp, hlate⟩)
  · intro hle
    refine ⟨hp, fun hmem => ((mem_timerWoken_iff h).mp hmem).2 hle, ?_⟩
    rw [timerWoken_eq h.nodup]
    refine List.mem_append_left _ (List.mem_reverse.mpr ?_)
    exact (mem_upTo_iff h.sorted).mpr ⟨hp, hle⟩

/-- Neither the sums of `relative_time` nor the clock before the requested
moment wrap. -/
structure Fits (s : Sched) (seconds subseconds : ℕ) : Prop where
  subticks : subseconds + s.timerSubticks < 2 ^ 32
  ticks : s.timerSubticks + seconds + 1 < 2 ^ 32
  moment : clock s + 1000 * seconds + subseconds < 1000 * 2 ^ 32

/-- The request needs no carry, or the carry, which is added to the subtick
counter and takes a thousand subticks off once, meets the moment by chance. -/
def Exact (s : Sched) (subseconds : ℕ) : Prop :=
  subseconds + s.timerSubticks ≤ 1000 ∨
    subseconds + s.timerSubticks ≤ 2000 ∧ s.timerSubticks = s.timerTicks ∨
    2000 < subseconds + s.timerSubticks ∧
      subseconds + s.timerSubticks + 1000 * s.timerTicks = 2000 + 1000 * s.timerSubticks

instance (s : Sched) (subseconds : ℕ) : Decidable (Exact s subseconds) :=
  inferInstanceAs (Decidable (_ ∨ _))

theorem relativeTime_eq (h : Fits s seconds subseconds) :
    relativeTime s seconds subseconds =
      if 1000 < subseconds + s.timerSubticks then
        (s.timerSubticks + seconds + 1, subseconds + s.timerSubticks - 1000)
      else (s.timerTicks + seconds, s.timerSubticks + subseconds) := by
  have hsub := h.subticks
  have htick := h.ticks
  have hmoment := h.moment
  unfold clock at hmoment
  simp only [relativeTime, subticksPerTick, add32_of_lt hsub,
    add32_of_lt (show s.timerSubticks + subseconds < 2 ^ 32 by omega),
    add32_of_lt (show s.timerTicks + seconds < 2 ^ 32 by omega),
    add32_of_lt (show s.timerSubticks + seconds < 2 ^ 32 by omega), add32_of_lt htick]
  split_ifs with hcarry
  · rw [sub32_of_le hsub hcarry.le]
  · rfl

/-- The requested deadline passes at the requested moment exactly if the carry
is right; where it is not, the moment is two subticks ahead or more. -/
theorem passing_relativeTime_iff (h : Fits s seconds subseconds) (hsub : s.timerSubticks < 1000) :
    (passing (toLex (relativeTime s seconds subseconds)) = clock s + 1000 * seconds + subseconds ↔
      Exact s subseconds) ∧
    (¬Exact s subseconds → clock s + 2 ≤ clock s + 1000 * seconds + subseconds) := by
  rw [relativeTime_eq h]
  unfold Exact clock passing
  split_ifs with hcarry
  · simp only [ofLex_toLex]
    omega
  · simp only [ofLex_toLex]
    omega

theorem contextSwitch_total (s : Sched) (reschedule : Bool) :
    ∃ t, contextSwitch s reschedule = some t := by
  unfold contextSwitch
  split
  · exact ⟨s, rfl⟩
  · split_ifs with hav
    · exact switchToNext_available rfl
    · exact switchToNext_available hav
    · exact ⟨s, rfl⟩

def Sleeping (p : ℕ) (s : Sched) (e : Event) : Prop := p ∈ s.sleepQueue ∧ Punctual s e

theorem Timed.sleeping (h : Timed s) (ht : Reach (Guarded (Sleeping p) Step) s events t)
    (hpt : p ∈ t.sleepQueue) : Timed t ∧ deadlines t p = deadlines s p := by
  have hinv : Timed t ∧ (p ∈ t.sleepQueue → deadlines t p = deadlines s p) := by
    refine ht.invariant (fun _ t => Timed t ∧ (p ∈ t.sleepQueue → deadlines t p = deadlines s p))
      ⟨h, fun _ => rfl⟩ ?_
    rintro _ u e v _ ⟨hu, hkey⟩ ⟨⟨hpu, hg⟩, hs⟩
    refine ⟨(hu.keeps hg hs).timed, fun hpv => ?_⟩
    rw [(hu.keeps hg hs).deadlines p hpu hpv, hkey hpu]
  exact ⟨hinv.1, hinv.2 hpt⟩

theorem Timed.ticks (h : Timed s) (hp : p ∈ s.sleepQueue) (k : ℕ)
    (hk : k = 0 ∨ clock s + k < passing (deadlines s p)) (hwrap : clock s + k < 1000 * 2 ^ 32) :
    ∃ events t, Reach (Guarded (Sleeping p) Step) s events t ∧ p ∈ t.sleepQueue ∧
      clock t = clock s + k := by
  induction k with
  | zero => exact ⟨[], s, .start, hp, rfl⟩
  | succ k ih =>
    obtain ⟨events, t, ht, hpt, hclock⟩ := ih (by omega) (by omega)
    obtain ⟨htimed, hkey⟩ := h.sleeping ht hpt
    have hnext : clock t + 1 < 1000 * 2 ^ 32 := by omega
    obtain ⟨u, hu⟩ := contextSwitch_total (timerWoken t) true
    have htick := htimed.tick hnext hu
    have hlate : ¬deadlines t p ≤ now t := by
      have hadv := advance_clock htimed.subticks hnext
      rw [now, le_now_iff hadv.2, hkey]
      change ¬passing (deadlines s p) ≤ clock (advance t)
      omega
    have hstep : Guarded (Sleeping p) Step t .tick u := ⟨⟨hpt, hnext⟩, hu⟩
    refine ⟨_, u, .next ht hstep, ?_, by omega⟩
    rw [htick.2.1]
    exact (mem_timerWoken_iff htimed).mpr ⟨hpt, hlate⟩

/-- A process that goes to sleep is moved to the ready queue by the first timer
interrupt at or after the requested moment, and by no other, in every
continuation, if and only if the carry of `relative_time` is right. -/
theorem wakes_on_time_iff {init ticks subticks : ℕ} {events : List Event} {s s' : Sched}
    {p seconds subseconds : ℕ} (hsub : subticks < 1000)
    (h : Reach (Guarded Punctual Step) (processInit init ticks subticks) events s)
    (hp : s.current = some p) (hnot : p ∉ s.sleepQueue) (hfit : Fits s seconds subseconds)
    (hs : Step s (.sleepUntil seconds subseconds) s') :
    (∀ after t, Reach (Guarded (Sleeping p) Step) s' after t → p ∈ t.sleepQueue →
        clock t + 1 < 1000 * 2 ^ 32 →
        (Wakes t p ↔ clock s + 1000 * seconds + subseconds ≤ clock t + 1)) ↔
      Exact s subseconds := by
  have htimed : Timed s := (processInit_timed hsub).reach h
  obtain ⟨hkeeps, hrests⟩ := htimed.sleepUntil hp hnot hs
  have htimed' := hkeeps.timed
  have hasleep : p ∈ (processSleepUntil s p seconds subseconds).sleepQueue := by
    rw [processSleepUntil, sleepEnqueue_sleepQueue _ _ hnot, (insert_perm p).mem_iff]
    exact List.mem_cons_self
  have hp' : p ∈ s'.sleepQueue := by rwa [hrests.sleepQueue]
  have hkey : deadlines s' p = toLex (relativeTime s seconds subseconds) := by
    rw [hrests.deadlines p hasleep]
    exact deadlines_sleepEnqueue_self s p _ _
  have hclock : clock s' = clock s := by
    rw [clock, hrests.ticks, hrests.subticks]
    rfl
  obtain ⟨hexact, hahead⟩ := passing_relativeTime_iff hfit htimed.subticks
  constructor
  · intro hwakes
    by_contra hne
    have hmoment := hfit.moment
    have htwo := hahead hne
    have hdiff : passing (deadlines s' p) ≠ clock s + 1000 * seconds + subseconds := by
      rw [hkey]
      exact fun heq => hne (hexact.mp heq)
    -- The last interrupt before the earlier of the two moments.
    obtain ⟨m, hm⟩ : ∃ m, m = min (max (passing (deadlines s' p)) (clock s + 1))
        (clock s + 1000 * seconds + subseconds) := ⟨_, rfl⟩
    obtain ⟨after, t, ht, hpt, htc⟩ := htimed'.ticks hp' (m - (clock s + 1)) (by omega) (by omega)
    obtain ⟨htt, htk⟩ := htimed'.sleeping ht hpt
    have hw := hwakes after t ht hpt (by omega)
    rw [htt.wakes_iff hpt (by omega), htk] at hw
    omega
  · intro hex after t ht hpt hwrap
    obtain ⟨htt, htk⟩ := htimed'.sleeping ht hpt
    rw [htt.wakes_iff hpt hwrap, htk, hkey, hexact.mpr hex]

/-- The first process forks a child and sleeps for three milliseconds. -/
theorem wakes_on_time_iff_short : ∃ s s',
    Reach (Guarded Punctual Step) (processInit 10 7 20) [.fork 20] s ∧
      Step s (.sleepUntil 0 3) s' ∧ s.current = some 10 ∧
      ∀ after t, Reach (Guarded (Sleeping 10) Step) s' after t → 10 ∈ t.sleepQueue →
        clock t + 1 < 1000 * 2 ^ 32 → (Wakes t 10 ↔ 7023 ≤ clock t + 1) := by
  have h : Reach (Guarded Punctual Step) (processInit 10 7 20) ([] ++ [.fork 20]) _ :=
    .next .start ⟨List.not_mem_nil, rfl⟩
  refine ⟨_, _, h, rfl, rfl, ?_⟩
  exact (wakes_on_time_iff (by decide) h rfl List.not_mem_nil
    ⟨by decide, by decide, by decide⟩ rfl).mpr (Or.inl (by decide))

/-- At second 1000 of the clock, in the middle of a second, a sleep of 1.6
seconds gets a deadline in the past and ends with the next interrupt. -/
theorem carried_sleep_ends_at_once : ∃ s,
    Reach (Guarded Punctual Step) (processInit 10 1000 500) [.fork 20, .sleepUntil 1 600] s ∧
      Wakes s 10 ∧ clock s = 1000500 ∧ clock s + 1 < 1000500 + 1000 * 1 + 600 := by
  have h : Reach (Guarded Punctual Step) (processInit 10 1000 500)
      ([] ++ [.fork 20] ++ [.sleepUntil 1 600]) _ :=
    .next (.next .start ⟨List.not_mem_nil, rfl⟩) ⟨fun _ _ => List.not_mem_nil, rfl⟩
  exact ⟨_, h, ⟨by decide, by decide, by decide⟩, rfl, by decide⟩

end Bingos.Scheduler
