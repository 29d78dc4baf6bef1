import Bingos.SchedulerModel

set_option autoImplicit false

namespace Bingos.Scheduler
open MachineWords StepRuns

theorem count_dropLast {l : List ℕ} {q : ℕ} (h : l.getLast? = some q) (p : ℕ) :
    l.count p = l.dropLast.count p + [q].count p := by
  rw [← List.count_append, List.dropLast_append_getLast? q h]

theorem sum_map_set (f : List ℕ → ℕ) (ws : List (List ℕ)) (k : ℕ) (w v : List ℕ)
    (h : ws[k]? = some w) :
    ((ws.set k v).map f).sum + f w = (ws.map f).sum + f v := by
  induction ws generalizing k with
  | nil => simp at h
  | cons x ws ih =>
    cases k with
    | zero =>
      obtain rfl : x = w := by simpa using h
      simp only [List.set_cons_zero, List.map_cons, List.sum_cons]
      omega
    | succ k =>
      have ht := ih k (by simpa using h)
      simp only [List.set_cons_succ, List.map_cons, List.sum_cons]
      omega

theorem count_eraseP {l : List ℕ} {f : ℕ → Bool} {q : ℕ} (h : l.find? f = some q) (p : ℕ) :
    l.count p = (l.eraseP f).count p + [q].count p := by
  obtain ⟨hq, before, after, rfl, hn⟩ := List.find?_eq_some_iff_append.mp h
  have hno : ∀ x ∈ before, ¬ f x = true := fun x hx => by simpa using hn x hx
  rw [List.eraseP_append_right _ hno, List.eraseP_cons_of_pos hq]
  simp only [List.count_append, List.count_cons, List.count_nil]
  omega

structure Shuffles (s t : Sched) : Prop where
  running : t.current.isSome
  created : t.created = s.created
  occurs : ∀ p, occurrences t p = occurrences s p
  finishedQueue : t.finishedQueue = s.finishedQueue
  state : ∀ p, (t.pcb p).state = (s.pcb p).state

variable {s t u : Sched} {c queue : ℕ}

theorem Shuffles.trans (h : Shuffles s t) (h' : Shuffles t u) : Shuffles s u :=
  ⟨h'.running, h'.created.trans h.created, fun p => (h'.occurs p).trans (h.occurs p),
    h'.finishedQueue.trans h.finishedQueue, fun p => (h'.state p).trans (h.state p)⟩

theorem Shuffles.refl (h : s.current.isSome) : Shuffles s s :=
  ⟨h, rfl, fun _ => rfl, rfl, fun _ => rfl⟩

@[simp] theorem schedEnqueue_occurrences (s : Sched) (q p : ℕ) :
    occurrences (schedEnqueue s q) p = occurrences s p + [q].count p := by
  simp only [occurrences, schedEnqueue, List.count_cons, List.count_nil]
  omega

theorem switchToNext_spec (h : switchToNext s = some t) :
    t.current.isSome ∧ t.created = s.created ∧ t.finishedQueue = s.finishedQueue ∧
      t.pcb = s.pcb ∧ ∀ p, occurrences t p + s.current.toList.count p = occurrences s p := by
  unfold switchToNext at h
  split at h
  · rename_i q hq
    obtain rfl := Option.some.inj h
    refine ⟨rfl, rfl, rfl, rfl, ?_⟩
    intro p
    have hc := count_dropLast hq p
    simp only [occurrences, Option.toList_some]
    omega
  · cases h

theorem switchToNext_available (h : schedAvailable s = true) :
    ∃ t, switchToNext s = some t := by
  unfold switchToNext
  cases hq : s.processQueue.getLast? with
  | some p => exact ⟨_, rfl⟩
  | none => simp [schedAvailable, List.getLast?_eq_none_iff.mp hq] at h

theorem contextSwitch_reschedule (hs : s.current.isSome)
    (h : contextSwitch s true = some t) : Shuffles s t := by
  obtain ⟨c, hc⟩ := Option.isSome_iff_exists.mp hs
  simp only [contextSwitch, hc] at h
  split_ifs at h
  · obtain ⟨hr, hcr, hf, hp, hocc⟩ := switchToNext_spec h
    refine ⟨hr, hcr, ?_, hf, fun p => by rw [hp]; rfl⟩
    intro p
    have ho := hocc p
    rw [schedEnqueue_occurrences] at ho
    change occurrences t p + s.current.toList.count p = _ at ho
    rw [hc] at ho
    simp only [Option.toList_some] at ho
    omega
  · exact Option.some.inj h ▸ Shuffles.refl hs

structure Parks (s u : Sched) (c : ℕ) : Prop where
  current : u.current = some c
  created : u.created = s.created
  finishedQueue : u.finishedQueue = s.finishedQueue
  processQueue : u.processQueue = s.processQueue
  state : ∀ p, (u.pcb p).state = (s.pcb p).state
  occurs : ∀ p, occurrences u p = occurrences s p + [c].count p

theorem Parks.switch (hu : Parks s u c) (hq : s.processQueue ≠ [])
    (h : contextSwitch u false = some t) : Shuffles s t := by
  have hav : schedAvailable u = true := by simp [schedAvailable, hu.processQueue, hq]
  simp only [contextSwitch, hu.current, hav, if_true, Bool.false_eq_true, if_false] at h
  obtain ⟨hr, hcr, hf, hp, hocc⟩ := switchToNext_spec h
  refine ⟨hr, hcr.trans hu.created, ?_, hf.trans hu.finishedQueue, fun p => by rw [hp, hu.state]⟩
  intro p
  have h1 := hu.occurs p
  have h2 := hocc p
  simp only [hu.current, Option.toList_some] at h2
  omega

theorem Parks.stay (hu : Parks s u c) (hq : s.processQueue = [])
    (h : contextSwitch u false = some t) : t = u := by
  have hav : schedAvailable u = false := by simp [schedAvailable, hu.processQueue, hq]
  simp only [contextSwitch, hu.current, hav, Bool.false_eq_true, if_false] at h
  exact (Option.some.inj h).symm

theorem sleepEnqueue_occurrences (s : Sched) (q seconds subseconds p : ℕ) :
    occurrences (sleepEnqueue s q seconds subseconds) p = occurrences s p + [q].count p := by
  have hsplit := congrArg (List.count p) (List.takeWhile_append_dropWhile
    (p := fun q => !later (s.pcb q) seconds subseconds) (l := s.sleepQueue))
  simp only [occurrences, sleepEnqueue, List.count_append, List.count_cons, List.count_nil]
    at hsplit ⊢
  omega

theorem update_state (pcb : ℕ → Pcb) (q : ℕ) (b : Pcb) (hb : b.state = (pcb q).state) (p : ℕ) :
    (Function.update pcb q b p).state = (pcb p).state := by
  by_cases h : p = q
  · rw [h, Function.update_self, hb]
  · rw [Function.update_of_ne h]

theorem sleepOn_occurrences {w : List ℕ} (hw : s.waitQueues[queue]? = some w) (p : ℕ) :
    occurrences { s with waitQueues := s.waitQueues.set queue (c :: w) } p =
      occurrences s p + [c].count p := by
  have hsum := sum_map_set (List.count p) s.waitQueues queue w (c :: w) hw
  simp only [occurrences, List.count_cons, List.count_nil] at hsum ⊢
  omega

theorem wakeupLoop_shuffles (ticks subticks : ℕ) (l : List ℕ) (s : Sched)
    (hl : s.sleepQueue = l) (hs : s.current.isSome) :
    Shuffles s (wakeupLoop ticks subticks l s) := by
  induction l generalizing s with
  | nil =>
    refine ⟨hs, rfl, ?_, rfl, fun _ => rfl⟩
    intro p
    simp only [wakeupLoop, occurrences, hl]
  | cons q rest ih =>
    unfold wakeupLoop
    split_ifs with hdue
    · refine Shuffles.trans ?_ (ih _ rfl hs)
      refine ⟨hs, rfl, ?_, rfl, ?_⟩
      · intro p
        rw [schedEnqueue_occurrences]
        simp only [occurrences, hl, List.count_cons, List.count_nil]
        omega
      · exact update_state s.pcb q { s.pcb q with endTick := 0, endSubtick := 0, status := 0 } rfl
    · refine ⟨hs, rfl, ?_, rfl, fun _ => rfl⟩
      intro p
      simp only [occurrences, hl]

structure Placed (s : Sched) : Prop where
  running : s.current.isSome
  once : ∀ p, occurrences s p = if p ∈ s.created then 1 else 0
  finished : ∀ p ∈ s.finishedQueue, (s.pcb p).state = .finished

theorem Placed.shuffle (h : Placed s) (hst : Shuffles s t) : Placed t := by
  refine ⟨hst.running, ?_, ?_⟩
  · intro p
    rw [hst.occurs, hst.created]
    exact h.once p
  · intro p hp
    rw [hst.state]
    exact h.finished p (hst.finishedQueue ▸ hp)

theorem processInit_placed (init ticks subticks : ℕ) :
    Placed (processInit init ticks subticks) := by
  refine ⟨rfl, ?_, ?_⟩
  · intro p
    by_cases hp : p = init
    · subst hp
      simp [occurrences, processInit]
    · simp [occurrences, processInit, hp, Ne.symm hp]
  · intro p hp
    simp [processInit] at hp

theorem advance_shuffles (hs : s.current.isSome) : Shuffles s (advance s) := by
  unfold advance
  split_ifs
  · exact ⟨hs, rfl, fun _ => rfl, rfl, fun _ => rfl⟩
  · exact ⟨hs, rfl, fun _ => rfl, rfl, fun _ => rfl⟩

theorem timerCallback_shuffles (hs : s.current.isSome)
    (h : timerCallback s = some t) : Shuffles s t := by
  have hcount := advance_shuffles hs
  have hwake := wakeupLoop_shuffles (advance s).timerTicks (advance s).timerSubticks
    (advance s).sleepQueue (advance s) rfl hcount.running
  exact (hcount.trans hwake).trans (contextSwitch_reschedule hwake.running h)

theorem wakeupFrom_shuffles (hs : s.current.isSome)
    (h : wakeupFrom s queue = some t) : Shuffles s t := by
  unfold wakeupFrom at h
  split at h
  · cases h
  · rename_i w hw
    cases hl : w.getLast? with
    | none =>
      rw [hl] at h
      exact Option.some.inj h ▸ Shuffles.refl hs
    | some q =>
      rw [hl] at h
      obtain rfl := Option.some.inj h
      refine ⟨hs, rfl, ?_, rfl, fun _ => rfl⟩
      intro p
      rw [schedEnqueue_occurrences]
      have hsum := sum_map_set (List.count p) s.waitQueues queue w w.dropLast hw
      have hlast := count_dropLast hl p
      simp only [occurrences] at hsum ⊢
      omega

theorem Placed.fork {child : ℕ} (h : Placed s) (ht : sysFork s child = some t) :
    Placed t := by
  obtain ⟨u, hu, rfl⟩ := Option.map_eq_some_iff.mp ht
  unfold processCreate at hu
  split_ifs at hu with hnew
  obtain rfl := Option.some.inj hu
  have hzero : occurrences s child = 0 := by simpa [hnew] using h.once child
  refine ⟨h.running, ?_, ?_⟩
  · intro p
    rw [schedEnqueue_occurrences]
    change occurrences s p + [child].count p = if p ∈ insert child s.created then 1 else 0
    by_cases hp : p = child
    · subst hp
      simp [hzero]
    · rw [h.once p]
      simp [hp, Ne.symm hp]
  · intro p hp
    change (Function.update s.pcb child _ p).state = .finished
    have hpc : p ≠ child := by
      rintro rfl
      have hpos := List.count_pos_iff.mpr hp
      have hz : occurrences s p = 0 := hzero
      simp only [occurrences] at hz
      change 0 < s.finishedQueue.count p at hpos
      omega
    rw [Function.update_of_ne hpc]
    exact h.finished p hp

theorem Placed.exit {ret : ℤ} (h : Placed s) (ht : processExit s ret = some t) :
    Placed t := by
  obtain ⟨c, hc, -, ht⟩ := processExit_cases ht
  obtain ⟨hr, hcr, hf, hp, hocc⟩ := switchToNext_spec ht
  refine ⟨hr, ?_, ?_⟩
  · intro p
    have ho := hocc p
    rw [hcr]
    change occurrences t p = if p ∈ s.created then 1 else 0
    rw [← h.once p]
    simp only [occurrences, schedEnqueueFinished, hc, Option.toList_some, List.count_append] at ho ⊢
    omega
  · intro p hpf
    rw [hp]
    change (Function.update s.pcb c _ p).state = .finished
    rw [hf] at hpf
    by_cases hpc : p = c
    · rw [hpc, Function.update_self]
    · rw [Function.update_of_ne hpc]
      rcases List.mem_append.mp hpf with hpf | hpf
      · exact h.finished p hpf
      · exact absurd (List.mem_singleton.mp hpf) hpc

theorem Placed.waitpid {pid : ℤ} (h : Placed s) (ht : sysWaitpid s pid = some t) :
    Placed t := by
  rcases sysWaitpid_cases ht with ⟨-, rfl⟩ | ⟨-, -, ht⟩ | ⟨-, q, hfind, ⟨-, rfl⟩ | ⟨hfin, -⟩⟩
  · exact h
  · exact h.shuffle (contextSwitch_reschedule h.running ht)
  · have hmem : q ∈ s.finishedQueue := List.mem_of_find?_eq_some hfind
    have hone := h.once q
    have hcreated : q ∈ s.created := by
      by_contra hq
      rw [if_neg hq] at hone
      have hpos := List.count_pos_iff.mpr hmem
      simp only [occurrences] at hone
      omega
    refine ⟨h.running, ?_, ?_⟩
    · intro p
      have hp := count_eraseP hfind p
      have hold := h.once p
      change occurrences { s with finishedQueue := s.finishedQueue.eraseP _ } p =
        if p ∈ s.created.erase q then 1 else 0
      by_cases hpq : p = q
      · subst hpq
        rw [if_pos hcreated] at hold
        simp only [Finset.mem_erase, ne_eq, not_true, false_and, if_false]
        simp only [occurrences, List.count_singleton_self] at hold hp ⊢
        omega
      · have hz : [q].count p = 0 := List.count_eq_zero.mpr (by simpa using hpq)
        simp only [Finset.mem_erase, ne_eq, hpq, not_false_eq_true, true_and]
        rw [← hold]
        simp only [occurrences] at hp ⊢
        omega
    · intro p hp
      exact h.finished p (List.mem_of_mem_eraseP hp)
  · exact absurd (h.finished q (List.mem_of_find?_eq_some hfind)) hfin

def Yields (s : Sched) : Event → Prop
  | .sleepUntil _ _ => s.processQueue ≠ []
  | .sleepOn _ => s.processQueue ≠ []
  | _ => True

instance : ∀ (s : Sched) (e : Event), Decidable (Yields s e)
  | s, .sleepUntil _ _ => inferInstanceAs (Decidable (s.processQueue ≠ []))
  | s, .sleepOn _ => inferInstanceAs (Decidable (s.processQueue ≠ []))
  | _, .tick | _, .listCreate | _, .wakeupFrom _ | _, .fork _ | _, .spawnTasklet _ | _, .exit _
  | _, .waitpid _ => .isTrue trivial

def yieldingStep (s : Sched) (e : Event) : Option Sched := if Yields s e then step s e else none

theorem yieldingStep_guarded (s : Sched) (e : Event) (t : Sched) (h : yieldingStep s e = some t) :
    Guarded Yields Step s e t := by
  unfold yieldingStep at h
  split_ifs at h with hyields
  exact ⟨hyields, h⟩

theorem sleepUntil_parks {seconds subseconds : ℕ} (hc : s.current = some c)
    (hs : Step s (.sleepUntil seconds subseconds) t) :
    ∃ u, Parks s u c ∧ contextSwitch u false = some t := by
  simp only [Step, step, hc] at hs
  refine ⟨processSleepUntil s c seconds subseconds, ⟨hc, rfl, rfl, rfl, ?_, ?_⟩, hs⟩
  · exact update_state s.pcb c
      { s.pcb c with endTick := (relativeTime s seconds subseconds).1,
                     endSubtick := (relativeTime s seconds subseconds).2 } rfl
  · exact sleepEnqueue_occurrences s c _ _

theorem sleepOn_parks (hc : s.current = some c)
    (hs : Step s (.sleepOn queue) t) : ∃ u, Parks s u c ∧ contextSwitch u false = some t := by
  change sleepOn s queue = some t at hs
  unfold sleepOn at hs
  split at hs
  · rename_i c' w hc' hw
    obtain rfl : c = c' := Option.some.inj (hc.symm.trans hc')
    exact ⟨{ s with waitQueues := s.waitQueues.set queue (c :: w) },
      ⟨hc, rfl, rfl, rfl, fun _ => rfl, sleepOn_occurrences hw⟩, hs⟩
  · cases hs

/-- What an event does to the places of the processes. -/
inductive Moves (s : Sched) (e : Event) (t : Sched) : Prop where
  | shuffle (h : Shuffles s t)
  | park {u : Sched} {c : ℕ} (hq : Yields s e → s.processQueue ≠ []) (hu : Parks s u c)
      (ht : contextSwitch u false = some t)
  | fork {child : ℕ} (ht : sysFork s child = some t)
  | exit {ret : ℤ} (ht : processExit s ret = some t)
  | waitpid {pid : ℤ} (ht : sysWaitpid s pid = some t)

theorem Step.moves {e : Event} (hrun : s.current.isSome) (hs : Step s e t) : Moves s e t := by
  obtain ⟨c, hc⟩ := Option.isSome_iff_exists.mp hrun
  cases e with
  | tick => exact .shuffle (timerCallback_shuffles hrun hs)
  | sleepUntil seconds subseconds =>
    obtain ⟨u, hu, ht⟩ := sleepUntil_parks hc hs
    exact .park id hu ht
  | listCreate =>
    obtain rfl := Option.some.inj hs
    refine .shuffle ⟨hrun, rfl, ?_, rfl, fun _ => rfl⟩
    intro p
    simp [occurrences]
  | sleepOn queue =>
    obtain ⟨u, hu, ht⟩ := sleepOn_parks hc hs
    exact .park id hu ht
  | wakeupFrom queue => exact .shuffle (wakeupFrom_shuffles hrun hs)
  | fork child => exact .fork hs
  | spawnTasklet child => exact .fork hs
  | exit ret => exact .exit hs
  | waitpid pid => exact .waitpid hs

theorem Placed.step {e : Event} (h : Placed s) (hg : Yields s e) (hs : Step s e t) : Placed t := by
  cases Step.moves h.running hs with
  | shuffle hst => exact h.shuffle hst
  | park hq hu ht => exact h.shuffle (hu.switch (hq hg) ht)
  | fork ht => exact h.fork ht
  | exit ht => exact h.exit ht
  | waitpid ht => exact h.waitpid ht

theorem Placed.twice (h : Placed s) (hc : s.current = some c)
    (hu : Parks s u c) (hq : s.processQueue = []) (ht : contextSwitch u false = some t) :
    ∃ p ∈ t.created, occurrences t p = 2 := by
  have hone := h.once c
  have hmem : c ∈ s.created := by
    by_contra hn
    rw [if_neg hn] at hone
    simp only [occurrences, hc, Option.toList_some, List.count_singleton_self] at hone
    omega
  rw [if_pos hmem] at hone
  rw [hu.stay hq ht]
  exact ⟨c, hu.created ▸ hmem, by rw [hu.occurs, hone, List.count_singleton_self]⟩

/-- In a run that never sleeps without another ready process, every process in
use is in exactly one place; and the first sleep without one leaves the
sleeping process in two. -/
theorem process_placement {init ticks subticks : ℕ} {events : List Event} {s : Sched}
    (h : Reach (Guarded Yields Step) (processInit init ticks subticks) events s) :
    (∀ p ∈ s.created, occurrences s p = 1) ∧
      ∀ e t, Step s e t → ¬ Yields s e → ∃ p ∈ t.created, occurrences t p = 2 := by
  have hp : Placed s := h.invariant (fun _ s => Placed s)
    (processInit_placed init ticks subticks) (fun _ _ _ _ _ hi hs => hi.step hs.1 hs.2)
  refine ⟨fun p hmem => by rw [hp.once p, if_pos hmem], ?_⟩
  intro e t hs hy
  obtain ⟨c, hc⟩ := Option.isSome_iff_exists.mp hp.running
  cases e with
  | sleepUntil seconds subseconds =>
    obtain ⟨u, hu, ht⟩ := sleepUntil_parks hc hs
    exact hp.twice hc hu (not_not.mp hy) ht
  | sleepOn queue =>
    obtain ⟨u, hu, ht⟩ := sleepOn_parks hc hs
    exact hp.twice hc hu (not_not.mp hy) ht
  | tick | listCreate | wakeupFrom _ | fork _ | spawnTasklet _ | exit _ | waitpid _ =>
    exact absurd trivial hy

/-- The first process forks a child, and sleeps while the child is ready. -/
theorem process_placement_fork : ∃ s,
    Reach (Guarded Yields Step) (processInit 10 0 0)
      [.listCreate, .fork 20, .sleepOn 0, .wakeupFrom 0, .tick] s ∧
    s.created = {20, 10} ∧ ∀ p ∈ s.created, occurrences s p = 1 := by
  have hrun : (List.foldlM yieldingStep (processInit 10 0 0)
      [.listCreate, .fork 20, .sleepOn 0, .wakeupFrom 0, .tick]).map (fun s => s.created) =
        some {20, 10} := by decide +kernel
  obtain ⟨s, hs, hcreated⟩ := Option.map_eq_some_iff.mp hrun
  have h := Reach.of_foldlM yieldingStep_guarded hs
  exact ⟨s, h, hcreated, (process_placement h).1⟩

/-- A lone process that waits on a queue is on that queue and still running. -/
theorem lone_sleeper_keeps_running : ∃ s,
    Reach Step (processInit 10 0 0) [.listCreate, .sleepOn 0] s ∧
      10 ∈ s.created ∧ s.current = some 10 ∧ s.waitQueues = [[10]] ∧ occurrences s 10 = 2 := by
  have h : Reach Step (processInit 10 0 0) ([] ++ [.listCreate] ++ [.sleepOn 0]) _ :=
    .next (.next .start rfl) rfl
  exact ⟨_, h, Finset.mem_singleton_self 10, rfl, rfl, rfl⟩

end Bingos.Scheduler
