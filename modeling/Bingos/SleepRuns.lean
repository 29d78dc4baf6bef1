import Bingos.SleepLists

set_option autoImplicit false

/-! Runs of the sleep queue: the queue in memory holds the processes asleep by
their deadlines, whatever the stale links say. -/
namespace Bingos.SleepLists
open PointerChains StepRuns NodeLists Scheduler StableQueues

structure Sleeper where
  process : ℕ
  deadline : ℕ ×ₗ ℕ

/-- The kernel, and the processes asleep in the order they were put to sleep. -/
structure Run where
  kernel : State
  asleep : List Sleeper

inductive Event where
  | sleep (p seconds subseconds : ℕ)
  | wakeup (ticks subticks : ℕ)
  | enqueue (p : ℕ)
  | dequeue
  | elsewhere

/-- Between the calls the ready queue is filled and served, and the rest of the
kernel writes to memory and control blocks of its own. -/
inductive Step : Run → Event → Run → Prop where
  | sleep {k k' : State} {l : List Sleeper} {a : Allocator} {fuel p seconds subseconds : ℕ}
      (ha : a.Sound) (hp : p ≠ 0) (hnew : ∀ e ∈ l, e.process ≠ p)
      (h : sleepEnqueue a fuel k p seconds subseconds = some k') :
      Step ⟨k, l⟩ (.sleep p seconds subseconds) ⟨k', l ++ [⟨p, toLex (seconds, subseconds)⟩]⟩
  | wakeup {k k' : State} {l : List Sleeper} {a : Allocator} {fuel ticks subticks : ℕ}
      (ha : a.Sound) (h : processWakeupSleepers a fuel k ticks subticks = some k') :
      Step ⟨k, l⟩ (.wakeup ticks subticks)
        ⟨k', l.filter fun e => toLex (ticks, subticks) < e.deadline⟩
  | enqueue {k : State} {l : List Sleeper} {a : Allocator} {p : ℕ} (ha : a.Sound) :
      Step ⟨k, l⟩ (.enqueue p) ⟨schedEnqueue a k p, l⟩
  | dequeue {k : State} {l : List Sleeper} {a : Allocator} :
      Step ⟨k, l⟩ .dequeue ⟨(schedDequeue a k).2, l⟩
  | elsewhere {k : State} {l : List Sleeper} {m : Memory} {pcb : ℕ → Pcb}
      (hsleep : m.list k.sleepQueue = k.lists.list k.sleepQueue)
      (hready : m.list k.processQueue = k.lists.list k.processQueue)
      (hnode : ∀ x ∈ k.live, m.node x = k.lists.node x)
      (hpcb : ∀ e ∈ l, deadline (pcb e.process) = deadline (k.pcb e.process)) :
      Step ⟨k, l⟩ .elsewhere ⟨{ k with lists := m, pcb := pcb }, l⟩

def schedInit (m : Memory) (pcb : ℕ → Pcb) (processQueue sleepQueue : ℕ) : State where
  lists := listCreate (listCreate m processQueue) sleepQueue
  live := ∅
  pcb := pcb
  sleepQueue := sleepQueue
  processQueue := processQueue

/-- The sleep queue of the scheduler holds the processes asleep, by deadline. -/
structure Ordered (s : Sched) (l : List Sleeper) : Prop where
  positive : ∀ e ∈ l, e.process ≠ 0
  deadlines : ∀ e ∈ l, deadlines s e.process = e.deadline
  perm : s.sleepQueue.Perm (l.map Sleeper.process)
  nodup : s.sleepQueue.Nodup
  sorted : Sorted (Scheduler.deadlines s) s.sleepQueue
  stable : ∀ d, (s.sleepQueue.filter fun p => Scheduler.deadlines s p = d) =
    (l.filter fun e => e.deadline = d).map Sleeper.process

variable {s t : Sched} {l : List Sleeper} {k : State} {rs ss : List ℕ}

theorem Ordered.mem_iff (h : Ordered s l) (p : ℕ) :
    p ∈ s.sleepQueue ↔ ∃ e ∈ l, e.process = p := by
  rw [h.perm.mem_iff, List.mem_map]

theorem filter_process {key : ℕ → ℕ ×ₗ ℕ} (h : ∀ e ∈ l, key e.process = e.deadline)
    (P : ℕ ×ₗ ℕ → Bool) :
    ((l.map Sleeper.process).filter fun p => P (key p)) =
      (l.filter fun e => P e.deadline).map Sleeper.process := by
  rw [List.filter_map]
  refine congrArg _ (List.filter_congr fun e he => ?_)
  rw [Function.comp_apply, h e he]

theorem Ordered.congr (h : Ordered s l) (hqueue : t.sleepQueue = s.sleepQueue)
    (hkey : ∀ e ∈ l, Scheduler.deadlines t e.process = Scheduler.deadlines s e.process) :
    Ordered t l := by
  have hmem : ∀ p ∈ s.sleepQueue, Scheduler.deadlines t p = Scheduler.deadlines s p := by
    intro p hp
    obtain ⟨e, he, rfl⟩ := (h.mem_iff p).mp hp
    exact hkey e he
  refine ⟨h.positive, fun e he => (hkey e he).trans (h.deadlines e he), by rw [hqueue]; exact h.perm,
    by rw [hqueue]; exact h.nodup, by rw [hqueue]; exact h.sorted.congr hmem, fun d => ?_⟩
  rw [hqueue, ← h.stable d]
  exact List.filter_congr fun p hp => by rw [hmem p hp]

theorem Ordered.sleepEnqueue (h : Ordered s l) {p : ℕ} (seconds subseconds : ℕ) (hp : p ≠ 0)
    (hnew : ∀ e ∈ l, e.process ≠ p) :
    Ordered (Scheduler.sleepEnqueue s p seconds subseconds)
      (l ++ [⟨p, toLex (seconds, subseconds)⟩]) := by
  have hps : p ∉ s.sleepQueue := fun hmem => by
    obtain ⟨e, he, heq⟩ := (h.mem_iff p).mp hmem
    exact hnew e he heq
  have hself := deadlines_sleepEnqueue_self s p seconds subseconds
  have hother : ∀ q ∈ s.sleepQueue,
      Scheduler.deadlines (Scheduler.sleepEnqueue s p seconds subseconds) q =
        Scheduler.deadlines s q := fun q hq =>
    deadlines_sleepEnqueue_of_ne seconds subseconds fun heq => hps (heq ▸ hq)
  have hqueue := sleepEnqueue_sleepQueue seconds subseconds hps
  have hperm : (Scheduler.sleepEnqueue s p seconds subseconds).sleepQueue.Perm
      (p :: s.sleepQueue) := by
    rw [hqueue]
    exact insert_perm p
  refine ⟨fun e he => ?_, fun e he => ?_, ?_, ?_, sleepEnqueue_sorted seconds subseconds h.sorted hps,
    fun d => ?_⟩
  · rcases List.mem_append.mp he with he | he
    · exact h.positive e he
    · rw [List.mem_singleton.mp he]
      exact hp
  · rcases List.mem_append.mp he with he | he
    · rw [hother _ ((h.mem_iff _).mpr ⟨e, he, rfl⟩), h.deadlines e he]
    · rw [List.mem_singleton.mp he]
      exact hself
  · rw [List.map_append]
    exact hperm.trans ((h.perm.cons p).trans (List.perm_append_singleton p _).symm)
  · exact hperm.nodup_iff.mpr (List.nodup_cons.mpr ⟨hps, h.nodup⟩)
  · rw [hqueue, filter_insert (h.sorted.congr hother), List.filter_append, List.map_append,
      ← h.stable d]
    congr 1
    · exact List.filter_congr fun q hq => by rw [hother q hq]
    · by_cases hd : toLex (seconds, subseconds) = d
      · simp [hself, hd]
      · simp [hself, hd]

theorem Ordered.processWakeupSleepers (h : Ordered s l) (ticks subticks : ℕ) :
    Ordered (Scheduler.processWakeupSleepers s ticks subticks)
      (l.filter fun e => toLex (ticks, subticks) < e.deadline) := by
  rw [Scheduler.processWakeupSleepers, wakeupLoop_eq ticks subticks h.nodup]
  have hbeyond := beyond_eq_filter h.sorted (toLex (ticks, subticks))
  have hkey : ∀ p ∈ beyond (Scheduler.deadlines s) (toLex (ticks, subticks)) s.sleepQueue,
      deadline (awaken (upTo (Scheduler.deadlines s) (toLex (ticks, subticks)) s.sleepQueue) s.pcb p) =
        Scheduler.deadlines s p := fun p hp =>
    deadlines_awaken fun hup => not_le.mpr (lt_of_mem_beyond h.sorted hp) (le_of_mem_upTo hup)
  have hmem : ∀ e ∈ l.filter fun e => toLex (ticks, subticks) < e.deadline,
      e.process ∈ beyond (Scheduler.deadlines s) (toLex (ticks, subticks)) s.sleepQueue := by
    intro e he
    obtain ⟨he, hlt⟩ := List.mem_filter.mp he
    rw [mem_beyond_iff h.sorted, h.deadlines e he]
    exact ⟨(h.mem_iff _).mpr ⟨e, he, rfl⟩, of_decide_eq_true hlt⟩
  refine ⟨fun e he => h.positive e (List.mem_of_mem_filter he), fun e he => ?_, ?_, ?_, ?_,
    fun d => ?_⟩
  · exact (hkey _ (hmem e he)).trans (h.deadlines e (List.mem_of_mem_filter he))
  · rw [hbeyond, ← filter_process h.deadlines fun d => toLex (ticks, subticks) < d]
    exact h.perm.filter _
  · rw [hbeyond]
    exact h.nodup.filter _
  · exact (h.sorted.sublist (List.dropWhile_sublist _)).congr hkey
  · calc
      _ = (beyond (Scheduler.deadlines s) (toLex (ticks, subticks)) s.sleepQueue).filter
            fun p => Scheduler.deadlines s p = d :=
          List.filter_congr fun p hp => by rw [Scheduler.deadlines, hkey p hp]
      _ = (s.sleepQueue.filter fun p => Scheduler.deadlines s p = d).filter
            fun p => toLex (ticks, subticks) < Scheduler.deadlines s p := by
          rw [hbeyond, List.filter_comm]
      _ = ((l.filter fun e => e.deadline = d).filter
            fun e => toLex (ticks, subticks) < e.deadline).map Sleeper.process := by
          rw [h.stable d]
          exact filter_process (fun e he => h.deadlines e (List.mem_of_mem_filter he))
            fun d => toLex (ticks, subticks) < d
      _ = _ := by rw [List.filter_comm]

def Kept (r : Run) : Prop := ∃ s ss rs, Holds r.kernel s ss rs ∧ Ordered s r.asleep

theorem Ordered.ne_zero (h : Ordered s l) : ∀ p ∈ s.sleepQueue, p ≠ 0 := by
  intro p hp
  obtain ⟨e, he, rfl⟩ := (h.mem_iff p).mp hp
  exact h.positive e he

theorem kept_schedInit (m : Memory) (pcb : ℕ → Pcb) {processQueue sleepQueue : ℕ}
    (hq : sleepQueue ≠ processQueue) : Kept ⟨schedInit m pcb processQueue sleepQueue, []⟩ := by
  have hsleep : (schedInit m pcb processQueue sleepQueue).lists.list sleepQueue = ⟨0, 0, 0⟩ :=
    (setList_list _ _ _ _).trans (if_pos rfl)
  have hready : (schedInit m pcb processQueue sleepQueue).lists.list processQueue = ⟨0, 0, 0⟩ :=
    ((setList_list _ _ _ _).trans (if_neg hq.symm)).trans
    ((setList_list _ _ _ _).trans (if_pos rfl))
  refine ⟨{ processInit 0 0 0 with pcb := pcb }, [], [], ⟨⟨?_, by simp, ?_⟩, ⟨?_, ?_, ?_⟩, by simp,
    by simp, hq, rfl, rfl, rfl⟩, ⟨by simp, by simp, .refl _, List.nodup_nil, .nil, fun _ => rfl⟩⟩
  · exact congrArg ListT.head hsleep
  · exact congrArg ListT.length hsleep
  · exact congrArg ListT.head hready
  · exact congrArg ListT.tail hready
  · exact congrArg ListT.length hready

theorem Holds.elsewhere {m : Memory} (h : Holds k s ss rs)
    (hsleep : m.list k.sleepQueue = k.lists.list k.sleepQueue)
    (hready : m.list k.processQueue = k.lists.list k.processQueue)
    (hnode : ∀ x ∈ k.live, m.node x = k.lists.node x) (pcb : ℕ → Pcb) :
    Holds { k with lists := m, pcb := pcb } { s with pcb := pcb } ss rs := by
  have hs : ∀ x ∈ ss, m.node x = k.lists.node x := fun x hx => hnode x (h.live x (Or.inl hx))
  have hr : ∀ x ∈ rs, m.node x = k.lists.node x := fun x hx => hnode x (h.live x (Or.inr hx))
  refine ⟨h.sleep.frame hsleep hs, h.ready.frame hready hr, h.apart, h.live, h.queues, ?_, ?_, rfl⟩
  · exact (map_value_congr fun x hx => by rw [hs x hx]).trans h.sleepers
  · exact (map_value_congr fun x hx => by rw [hr x hx]).trans h.readies

theorem kept_step {r r' : Run} {e : Event} (h : Kept r) (hs : Step r e r') : Kept r' := by
  obtain ⟨s, ss, rs, hh, ho⟩ := h
  cases hs with
  | @sleep _ _ _ _ fuel p seconds subseconds ha hp hnew hcall =>
    obtain ⟨k', ss', hcall', hh'⟩ :=
      hh.sleepEnqueue ha p seconds subseconds (Nat.lt_succ_of_le (Nat.le_max_right fuel ss.length))
    have hle : fuel ≤ max fuel ss.length + 1 := Nat.le_succ_of_le (Nat.le_max_left _ _)
    obtain rfl := Option.some.inj ((sleepEnqueue_mono hle hcall).symm.trans hcall')
    exact ⟨_, _, _, hh', ho.sleepEnqueue seconds subseconds hp hnew⟩
  | @wakeup _ _ _ _ fuel ticks subticks ha hcall =>
    obtain ⟨k', ss', rs', hcall', hh'⟩ := hh.processWakeupSleepers ha ho.ne_zero ticks subticks
      (Nat.lt_succ_of_le (Nat.le_max_right fuel ss.length))
    have hle : fuel ≤ max fuel ss.length + 1 := Nat.le_succ_of_le (Nat.le_max_left _ _)
    obtain rfl := Option.some.inj ((processWakeupSleepers_mono hle hcall).symm.trans hcall')
    exact ⟨_, _, _, hh', ho.processWakeupSleepers ticks subticks⟩
  | enqueue ha => exact ⟨_, _, _, hh.schedEnqueue ha _, ho.congr rfl fun _ _ => rfl⟩
  | dequeue =>
    rcases List.eq_nil_or_concat rs with rfl | ⟨rs, x, rfl⟩
    · rw [hh.schedDequeue_nil]
      exact ⟨s, ss, [], hh, ho⟩
    · rw [List.concat_eq_append] at hh
      exact ⟨_, _, _, hh.schedDequeue_concat _, ho.congr rfl fun _ _ => rfl⟩
  | elsewhere hsleep hready hnode hpcb =>
    refine ⟨{ s with pcb := _ }, ss, rs, hh.elsewhere hsleep hready hnode _, ho.congr rfl ?_⟩
    intro e he
    rw [deadlines, deadlines, hpcb e he, hh.pcb]

/-- Following `next` from the head, the list at `l` holds `vs`, and `length` counts them. -/
def Queued (m : Memory) (l : ℕ) (vs : List ℕ) : Prop :=
  ∃ ns, Chain 0 m.next (m.list l).head ns ∧ (m.list l).length = ns.length ∧ ns.map (value m) = vs

theorem Holds.queued (h : Holds k s ss rs) :
    Queued k.lists k.sleepQueue s.sleepQueue ∧ Queued k.lists k.processQueue s.processQueue :=
  ⟨⟨ss, h.sleep.chain, h.sleep.length, h.sleepers⟩,
    ⟨rs, h.ready.forward, h.ready.length, h.readies⟩⟩

/-- In every run the sleep queue holds the processes asleep by deadline and
arrival, and a wake-up call moves those that are due to the ready queue. -/
theorem sleep_queue_ordered {m : Memory} {pcb : ℕ → Pcb} {processQueue sleepQueue : ℕ}
    {es : List Event} {r : Run} (hq : sleepQueue ≠ processQueue)
    (h : Reach Step ⟨schedInit m pcb processQueue sleepQueue, []⟩ es r) :
    ∃ q ready, Queued r.kernel.lists r.kernel.sleepQueue q ∧
      Queued r.kernel.lists r.kernel.processQueue ready ∧
      q.Perm (r.asleep.map Sleeper.process) ∧ q.Nodup ∧
      (∀ e ∈ r.asleep, deadline (r.kernel.pcb e.process) = e.deadline) ∧
      (q.Pairwise fun p p' => deadline (r.kernel.pcb p) ≤ deadline (r.kernel.pcb p')) ∧
      (∀ d, (q.filter fun p => deadline (r.kernel.pcb p) = d) =
        (r.asleep.filter fun e => e.deadline = d).map Sleeper.process) ∧
      (∀ (a : Allocator) (fuel p seconds subseconds : ℕ), a.Sound → q.length < fuel →
        (sleepEnqueue a fuel r.kernel p seconds subseconds).isSome) ∧
      ∀ (a : Allocator) (fuel ticks subticks : ℕ), a.Sound → q.length < fuel →
        ∃ k, processWakeupSleepers a fuel r.kernel ticks subticks = some k ∧
          Queued k.lists k.sleepQueue
            (q.filter fun p => toLex (ticks, subticks) < deadline (r.kernel.pcb p)) ∧
          Queued k.lists k.processQueue
            ((q.filter fun p => deadline (r.kernel.pcb p) ≤ toLex (ticks, subticks)).reverse ++
              ready) ∧
          ∀ p, (p ∈ q → toLex (ticks, subticks) < deadline (r.kernel.pcb p)) →
            k.pcb p = r.kernel.pcb p := by
  have hkept : Kept r := h.invariant (fun _ r => Kept r) (kept_schedInit m pcb hq)
    fun _ _ _ _ _ hk hs => kept_step hk hs
  obtain ⟨s, ss, rs, hh, ho⟩ := hkept
  have hlen : ss.length = s.sleepQueue.length := by rw [← hh.sleepers, List.length_map]
  refine ⟨s.sleepQueue, s.processQueue, hh.queued.1, hh.queued.2, ho.perm, ho.nodup, ?_⟩
  rw [hh.pcb]
  refine ⟨ho.deadlines, ho.sorted, ho.stable, fun a fuel p seconds subseconds ha hfuel => ?_,
    fun a fuel ticks subticks ha hfuel => ?_⟩
  · obtain ⟨k, _, hcall, _⟩ := hh.sleepEnqueue ha p seconds subseconds (hlen.trans_lt hfuel)
    exact Option.isSome_of_eq_some hcall
  · obtain ⟨k, _, _, hcall, hk⟩ :=
      hh.processWakeupSleepers ha ho.ne_zero ticks subticks (hlen.trans_lt hfuel)
    rw [Scheduler.processWakeupSleepers, wakeupLoop_eq ticks subticks ho.nodup,
      beyond_eq_filter ho.sorted, upTo_eq_filter ho.sorted] at hk
    refine ⟨k, hcall, hk.queued.1, hk.queued.2, fun p hp => ?_⟩
    rw [hk.pcb]
    refine if_neg fun hmem => ?_
    obtain ⟨hmem, hle⟩ := List.mem_filter.mp hmem
    exact not_le.mpr (hp hmem) (of_decide_eq_true hle)

def firstFree : Allocator where
  kmalloc := firstAbove
  freed _ := ⟨0, 0, 0⟩

theorem firstFree_sound : firstFree.Sound := fun live =>
  ⟨firstAbove_ne_zero live, firstAbove_notMem live⟩

def emptyQueues : State :=
  schedInit ⟨fun _ => ⟨0, 0, 0⟩, fun _ => ⟨0, 0, 0⟩⟩ (fun _ => ⟨1, .ready, 0, 0, 0⟩) 1 2

theorem sleep_queue_ordered_two :
    ∃ (es : List Event) (r : Run), Reach Step ⟨emptyQueues, []⟩ es r ∧
      r.asleep.map Sleeper.process = [10, 20] ∧
      ∃ q, Queued r.kernel.lists r.kernel.sleepQueue q ∧ q.Perm [10, 20] ∧
        q.Pairwise fun p p' => deadline (r.kernel.pcb p) ≤ deadline (r.kernel.pcb p') := by
  have hfirst := @Step.sleep emptyQueues _ [] firstFree 1 10 5 0 firstFree_sound (by decide)
    (by simp) rfl
  have hrun := Reach.next (Reach.next Reach.start hfirst)
    (@Step.sleep _ _ _ firstFree 2 20 3 0 firstFree_sound (by decide) (by simp) rfl)
  obtain ⟨q, _, hq, _, hperm, _, _, hsorted, _⟩ := sleep_queue_ordered (by decide) hrun
  exact ⟨_, _, hrun, rfl, q, hq, hperm, hsorted⟩

end Bingos.SleepLists
