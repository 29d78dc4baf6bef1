import Bingos.QueueFifo
import Bingos.SchedulerModel

set_option autoImplicit false

/-! The queues in memory refine the lists of processes of the scheduler: call
by call, failed assertions included, and so over every history. -/
namespace Bingos.NodeLists
open StepRuns
open Scheduler (Sched processInit)

def Kernel.contents (k : Kernel) (l : ℕ) : Option (List ℕ) :=
  (k.deques l).map (List.map Entry.value)

/-- The ready queue and the wait queues, those at the addresses `queues`, hold
what `s` says. A process is not NULL. -/
structure Holds (queues : List ℕ) (k : Kernel) (s : Sched) : Prop where
  fifo : Fifo k
  current : k.current = s.current.getD 0
  running : s.current ≠ some 0
  ready : k.contents k.processQueue = some s.processQueue
  waiting : queues.map k.contents = s.waitQueues.map some
  separate : (k.processQueue :: queues).Nodup
  known : ∀ l, (k.deques l).isSome → l ∈ k.processQueue :: queues
  processes : 0 ∉ s.processQueue ∧ ∀ w ∈ s.waitQueues, 0 ∉ w

variable {queues : List ℕ} {k k' : Kernel} {s : Sched} {l n p queue : ℕ} {q : List Entry}

theorem contents_update (h : k'.deques = Function.update k.deques l (some q)) :
    k'.contents = Function.update k.contents l (some (q.map Entry.value)) := by
  funext j
  by_cases hj : j = l
  · subst hj
    simp [Kernel.contents, h]
  · simp [Kernel.contents, h, Function.update_of_ne hj]

theorem known_update {ls : List ℕ} (h : ∀ j, (k.deques j).isSome → j ∈ ls) (hl : l ∈ ls)
    (hd : k'.deques = Function.update k.deques l (some q)) :
    ∀ j, (k'.deques j).isSome → j ∈ ls := by
  intro j hj
  by_cases hjl : j = l
  · exact hjl ▸ hl
  · rw [hd, Function.update_of_ne hjl] at hj
    exact h j hj

theorem Holds.processQueue (h : Holds queues k s) :
    ∃ q, k.deques k.processQueue = some q ∧ q.map Entry.value = s.processQueue :=
  Option.map_eq_some_iff.mp h.ready

theorem Holds.wait (h : Holds queues k s) (hl : queue ∈ queues) :
    ∃ q, k.deques queue = some q ∧
      s.waitQueues[queues.idxOf queue]? = some (q.map Entry.value) := by
  have hget := congrArg (fun ws => ws[queues.idxOf queue]?) h.waiting
  simp only [List.getElem?_map, List.getElem?_idxOf hl, Option.map_some] at hget
  obtain ⟨w, hw, hcontents⟩ := Option.map_eq_some_iff.mp hget.symm
  obtain ⟨q, hq, hvalues⟩ := Option.map_eq_some_iff.mp hcontents.symm
  exact ⟨q, hq, by rw [hvalues, hw]⟩

theorem Holds.update_ready (h : Holds queues k s) (hfifo : Fifo k')
    (hqueue : k'.processQueue = k.processQueue) (hcurrent : k'.current = k.current)
    (hd : k'.deques = Function.update k.deques k.processQueue (some q))
    (hp : 0 ∉ q.map Entry.value) :
    Holds queues k' { s with processQueue := q.map Entry.value } := by
  have hcontents := contents_update hd
  obtain ⟨hnot, hnodup⟩ := List.nodup_cons.mp h.separate
  refine ⟨hfifo, hcurrent.trans h.current, h.running, ?_, ?_, by rw [hqueue]; exact h.separate, ?_,
    hp, h.processes.2⟩
  · rw [hcontents, hqueue, Function.update_self]
  · rw [hcontents, hnodup.map_update, if_neg hnot]
    exact h.waiting
  · rw [hqueue]
    exact known_update h.known List.mem_cons_self hd

theorem Holds.update_wait (h : Holds queues k s) (hl : queue ∈ queues) (hfifo : Fifo k')
    (hqueue : k'.processQueue = k.processQueue) (hcurrent : k'.current = k.current)
    (hd : k'.deques = Function.update k.deques queue (some q)) (hp : 0 ∉ q.map Entry.value) :
    Holds queues k'
      { s with waitQueues := s.waitQueues.set (queues.idxOf queue) (q.map Entry.value) } := by
  have hcontents := contents_update hd
  obtain ⟨hnot, hnodup⟩ := List.nodup_cons.mp h.separate
  have hne : k.processQueue ≠ queue := fun he => hnot (he ▸ hl)
  refine ⟨hfifo, hcurrent.trans h.current, h.running, ?_, ?_, by rw [hqueue]; exact h.separate, ?_,
    h.processes.1, fun w hw => ?_⟩
  · rw [hcontents, hqueue, Function.update_of_ne hne]
    exact h.ready
  · rw [hcontents, hnodup.map_update, if_pos hl, h.waiting, ← List.map_set]
  · rw [hqueue]
    exact known_update h.known (List.mem_cons_of_mem _ hl) hd
  · rcases List.mem_or_eq_of_mem_set hw with hold | rfl
    · exact h.processes.2 w hold
    · exact hp

theorem enqueue_deques (hq : k.deques l = some q) :
    (k.enqueue l n p).deques = Function.update k.deques l (some (⟨n, p⟩ :: q)) := by
  simp only [Kernel.enqueue, Call.spec, hq, Option.map_some]

theorem Fifo.dequeue_deques (h : Fifo k) (hq : k.deques l = some q) :
    (k.dequeue l).2.deques = Function.update k.deques l (some q.dropLast) := by
  have hvalue := (h.dequeue hq).1
  unfold Kernel.dequeue at hvalue ⊢
  dsimp only at hvalue ⊢
  split_ifs at hvalue ⊢
  · -- nothing was popped, so the list is empty
    obtain rfl := List.getLast?_eq_none_iff.mp (Option.map_eq_none_iff.mp hvalue.symm)
    rw [List.dropLast_nil, ← hq, Function.update_eq_self]
  · simp only [Call.spec, hq, Option.map_some]

theorem dequeue_rest (k : Kernel) (l : ℕ) :
    (k.dequeue l).2.processQueue = k.processQueue ∧ (k.dequeue l).2.current = k.current := by
  unfold Kernel.dequeue
  dsimp only
  split_ifs
  · exact ⟨rfl, rfl⟩
  · exact ⟨rfl, rfl⟩

section Calls

variable (h : Holds queues k s)
include h

theorem Holds.enqueue_ready (hn : Fresh k.deques n) (hp : p ≠ 0) :
    Holds queues (k.enqueue k.processQueue n p) (Scheduler.schedEnqueue s p) := by
  obtain ⟨q, hq, hvalues⟩ := h.processQueue
  have hnot : 0 ∉ p :: s.processQueue := by
    rw [List.mem_cons, not_or]
    exact ⟨hp.symm, h.processes.1⟩
  rw [← hvalues] at hnot
  have hready := h.update_ready (h.fifo.enqueue h.fifo.ready hn p) rfl rfl (enqueue_deques hq) hnot
  rw [List.map_cons, hvalues] at hready
  exact hready

theorem Holds.schedEnqueue (hn : Fresh k.deques n) (hp : p ≠ 0) :
    Option.Rel (Holds queues) (schedEnqueue k n p) (some (Scheduler.schedEnqueue s p)) := by
  rw [NodeLists.schedEnqueue, if_neg hp]
  exact .some (h.enqueue_ready hn hp)

theorem Holds.switchToNext :
    Option.Rel (Holds queues) (switchToNext k) (Scheduler.switchToNext s) := by
  obtain ⟨q, hq, hvalues⟩ := h.processQueue
  obtain ⟨hvalue, hfifo⟩ := h.fifo.dequeue hq
  have hlast : (k.dequeue k.processQueue).1 = s.processQueue.getLast? := by
    rw [hvalue, ← hvalues, List.getLast?_map]
  have hdrop : q.dropLast.map Entry.value = s.processQueue.dropLast := by
    rw [← hvalues, List.map_dropLast]
  unfold NodeLists.switchToNext Scheduler.switchToNext schedDequeue
  rw [hlast]
  cases hp : s.processQueue.getLast? with
  | none => exact .none
  | some p =>
    have hne : p ≠ 0 := fun he => h.processes.1 (he ▸ List.mem_of_getLast? hp)
    have hready := h.update_ready hfifo (dequeue_rest k _).1 (dequeue_rest k _).2
      (h.fifo.dequeue_deques hq)
      (hdrop ▸ fun hmem => h.processes.1 (List.mem_of_mem_dropLast hmem))
    rw [hdrop] at hready
    simp only [Option.getD_some, if_neg hne]
    refine .some ⟨⟨hfifo.represents, hfifo.ready, hfifo.order⟩, rfl, ?_, hready.ready,
      hready.waiting, hready.separate, hready.known, hready.processes⟩
    simpa using hne

theorem Holds.head_iff :
    (k.lists.list k.processQueue).head = 0 ↔ s.processQueue = [] := by
  obtain ⟨q, hq, hvalues⟩ := h.processQueue
  rw [(h.fifo.represents.linked _ q hq).head_eq_zero_iff, ← hvalues, nodes, List.map_eq_nil_iff,
    List.map_eq_nil_iff]

theorem Holds.contextSwitch {reschedule : Bool} (hn : reschedule = true → Fresh k.deques n) :
    Option.Rel (Holds queues) (contextSwitch k reschedule n)
      (Scheduler.contextSwitch s reschedule) := by
  unfold NodeLists.contextSwitch Scheduler.contextSwitch
  have hcurrent := h.current
  cases hc : s.current with
  | none =>
    rw [hc, Option.getD_none] at hcurrent
    rw [if_pos hcurrent]
    exact .some h
  | some c =>
    rw [hc, Option.getD_some] at hcurrent
    obtain rfl := hcurrent
    have hne : k.current ≠ 0 := fun he => h.running (hc.trans (congrArg some he))
    rw [if_neg hne]
    by_cases hempty : s.processQueue = []
    · rw [if_pos (h.head_iff.mpr hempty)]
      simp only [Scheduler.schedAvailable, hempty]
      exact .some h
    · have havailable : Scheduler.schedAvailable s = true := by
        simp [Scheduler.schedAvailable, hempty]
      rw [if_neg (mt h.head_iff.mp hempty), havailable]
      cases reschedule with
      | false => exact h.switchToNext
      | true =>
        rw [if_pos rfl, NodeLists.schedEnqueue, if_neg hne]
        exact (h.enqueue_ready (hn rfl) hne).switchToNext

theorem Holds.sleepOn (hl : queue ∈ queues) (hn : Fresh k.deques n) (hrun : k.current ≠ 0) :
    Option.Rel (Holds queues) (sleepOn k queue n)
      (Scheduler.sleepOn s (queues.idxOf queue)) := by
  obtain ⟨q, hq, hw⟩ := h.wait hl
  have hcurrent := h.current
  cases hc : s.current with
  | none =>
    rw [hc] at hcurrent
    exact absurd hcurrent hrun
  | some c =>
    rw [hc] at hcurrent
    obtain rfl : k.current = c := hcurrent
    have hnot : 0 ∉ (⟨n, k.current⟩ :: q : List Entry).map Entry.value := by
      rw [List.map_cons, List.mem_cons, not_or]
      exact ⟨hrun.symm, h.processes.2 _ (List.mem_of_getElem? hw)⟩
    have hparked := h.update_wait hl
      (h.fifo.enqueue (Option.isSome_iff_exists.mpr ⟨q, hq⟩) hn k.current) rfl rfl
      (enqueue_deques hq) hnot
    rw [hc] at hparked
    simp only [NodeLists.sleepOn, Scheduler.sleepOn, hc, hw]
    exact hparked.contextSwitch fun hr => Bool.noConfusion hr

theorem Holds.wakeupFrom (hl : queue ∈ queues) (hn : Fresh (k.dequeue queue).2.deques n) :
    Option.Rel (Holds queues) (wakeupFrom k queue n)
      (Scheduler.wakeupFrom s (queues.idxOf queue)) := by
  obtain ⟨q, hq, hw⟩ := h.wait hl
  obtain ⟨hvalue, hfifo⟩ := h.fifo.dequeue hq
  have hzero := h.processes.2 _ (List.mem_of_getElem? hw)
  have hdrop : q.dropLast.map Entry.value = (q.map Entry.value).dropLast := List.map_dropLast
  have hwoken := h.update_wait hl hfifo (dequeue_rest k _).1 (dequeue_rest k _).2
    (h.fifo.dequeue_deques hq) (hdrop ▸ fun hmem => hzero (List.mem_of_mem_dropLast hmem))
  unfold NodeLists.wakeupFrom Scheduler.wakeupFrom
  simp only [hw, hvalue, List.getLast?_map]
  cases hlast : q.getLast? with
  | none =>
    obtain rfl := List.getLast?_eq_none_iff.mp hlast
    obtain ⟨hi, hget⟩ := List.getElem?_eq_some_iff.mp hw
    rw [List.dropLast_nil, ← hget, List.set_getElem_self] at hwoken
    exact .some hwoken
  | some e =>
    have hne : e.value ≠ 0 :=
      fun he => hzero (he ▸ List.mem_map_of_mem (List.mem_of_getLast? hlast))
    simp only [Option.map_some, if_neg hne, ← hdrop]
    exact hwoken.schedEnqueue hn hne

theorem Holds.create (hl : k.deques l = none) :
    Holds (queues ++ [l]) (k.create l) { s with waitQueues := s.waitQueues ++ [[]] } := by
  have hnew : ∀ j, (k.deques j).isSome → j ≠ l := by
    rintro j hj rfl
    rw [hl] at hj
    cases hj
  have hcontents := contents_update (show (k.create l).deques = _ from rfl)
  have hqueues : ∀ j ∈ queues, j ≠ l := by
    intro j hj
    obtain ⟨q, hq, -⟩ := h.wait hj
    exact hnew j (by rw [hq]; rfl)
  have hready := hnew k.processQueue h.fifo.ready
  refine ⟨Fifo.create h.fifo.represents h.fifo.order (Or.inr h.fifo.ready) hl, h.current, h.running,
    ?_, ?_, ?_, ?_, h.processes.1, ?_⟩
  · rw [hcontents]
    exact (Function.update_of_ne hready _ _).trans h.ready
  · rw [hcontents, List.map_append, List.map_append, ← h.waiting]
    congr 1
    · exact List.map_congr_left fun j hj => Function.update_of_ne (hqueues j hj) _ _
    · simp
  · rw [← List.cons_append]
    refine h.separate.append (List.nodup_singleton l) ?_
    rw [List.disjoint_singleton, List.mem_cons, not_or]
    exact ⟨hready.symm, fun hmem => hqueues l hmem rfl⟩
  · rw [← List.cons_append]
    exact known_update (fun j hj => List.mem_append_left _ (h.known j hj))
      (List.mem_append_right _ (List.mem_singleton.mpr rfl)) rfl
  · intro w hw
    rcases List.mem_append.mp hw with hold | hempty
    · exact h.processes.2 w hold
    · simp [List.mem_singleton.mp hempty]

end Calls

/-- The same event on the lists of processes, with the addresses of the wait
queues created so far. -/
def Event.act (a : List ℕ × Sched) : Event → Option (List ℕ × Sched)
  | .listCreate l => (Scheduler.step a.2 .listCreate).map (a.1 ++ [l], ·)
  | .schedEnqueue _ p => some (a.1, Scheduler.schedEnqueue a.2 p)
  | .switchToNext => (Scheduler.switchToNext a.2).map (a.1, ·)
  | .contextSwitch reschedule _ => (Scheduler.contextSwitch a.2 reschedule).map (a.1, ·)
  | .sleepOn queue _ => (Scheduler.sleepOn a.2 (a.1.idxOf queue)).map (a.1, ·)
  | .wakeupFrom queue _ => (Scheduler.wakeupFrom a.2 (a.1.idxOf queue)).map (a.1, ·)

/-- Processes are not NULL, and the ready queue is not used as a wait queue. -/
def Event.Proper (k : Kernel) : Event → Prop
  | .schedEnqueue _ p => p ≠ 0
  | .sleepOn queue _ => queue ≠ k.processQueue ∧ k.current ≠ 0
  | .wakeupFrom queue _ => queue ≠ k.processQueue
  | _ => True

theorem Holds.mem_queues (h : Holds queues k s) (hl : (k.deques l).isSome)
    (hne : l ≠ k.processQueue) : l ∈ queues :=
  (List.mem_cons.mp (h.known l hl)).resolve_left hne

theorem rel_map {α β γ : Type} {R : α → β → Prop} {T : α → γ → Prop} {f : β → γ} {x : Option α}
    {y : Option β} (h : Option.Rel R x y) (hf : ∀ a b, R a b → T a (f b)) :
    Option.Rel T x (y.map f) := by
  cases h with
  | none => exact .none
  | some hab => exact .some (hf _ _ hab)

theorem Holds.step {a : List ℕ × Sched} {e : Event} (h : Holds a.1 k a.2) (hv : e.Valid k)
    (hp : e.Proper k) : Option.Rel (fun k a => Holds a.1 k a.2) (e.run k) (e.act a) := by
  cases e with
  | listCreate l => exact .some (h.create hv)
  | schedEnqueue n p => exact rel_map (f := (a.1, ·)) (h.schedEnqueue hv hp) fun _ _ hk => hk
  | switchToNext => exact rel_map h.switchToNext fun _ _ hk => hk
  | contextSwitch reschedule n => exact rel_map (h.contextSwitch fun _ => hv) fun _ _ hk => hk
  | sleepOn queue n =>
    exact rel_map (h.sleepOn (h.mem_queues hv.1 hp.1) hv.2 hp.2) fun _ _ hk => hk
  | wakeupFrom queue n =>
    exact rel_map (h.wakeupFrom (h.mem_queues hv.1 hp) hv.2) fun _ _ hk => hk

theorem schedInit_holds (m : Memory) (processQueue ticks subticks : ℕ) {init : ℕ}
    (hinit : init ≠ 0) :
    Holds [] (schedInit m processQueue init) (processInit init ticks subticks) := by
  have hcontents : ∀ l, (schedInit m processQueue init).deques l =
      if l = processQueue then some [] else none := by
    intro l
    exact Function.update_apply _ _ _ _
  refine ⟨schedInit_fifo m processQueue init, rfl, ?_, ?_, rfl, List.nodup_singleton _, ?_, ?_⟩
  · simpa [processInit] using hinit
  · exact congrArg _ ((hcontents processQueue).trans (if_pos rfl))
  · intro l hl
    rw [hcontents] at hl
    split_ifs at hl with he
    · exact List.mem_singleton.mpr he
    · cases hl
  · exact ⟨List.not_mem_nil, nofun⟩

def actAll (a : List ℕ × Sched) (es : List (Option Event)) : Option (List ℕ × Sched) :=
  es.reduceOption.foldlM (fun a e => e.act a) a

/-- Every history of the queues in memory is one of the scheduler's queues, with
the same processes in the same order at its end. -/
theorem queues_refine_scheduler {m : Memory} {processQueue init : ℕ} {es : List (Option Event)}
    (h : Reach (Guarded (fun k e => ∀ x ∈ e, Event.Proper k x) KernelStep)
      (schedInit m processQueue init) es k) (hinit : init ≠ 0) (ticks subticks : ℕ) :
    ∃ a, actAll ([], processInit init ticks subticks) es = some a ∧ Holds a.1 k a.2 := by
  refine h.invariant (fun es k => ∃ a, actAll ([], processInit init ticks subticks) es = some a ∧
    Holds a.1 k a.2) ⟨_, rfl, schedInit_holds m processQueue ticks subticks hinit⟩ ?_
  rintro es k e k' - ⟨a, hact, hholds⟩ ⟨hproper, hstep⟩
  cases hstep with
  | reuse hsame =>
    refine ⟨a, ?_, ?_⟩
    · rw [actAll, List.reduceOption_append, List.reduceOption_singleton, Option.toList_none,
        List.append_nil]
      exact hact
    · exact ⟨⟨hholds.fifo.represents.reuse hsame, hholds.fifo.ready, hholds.fifo.order⟩,
        hholds.current, hholds.running, hholds.ready, hholds.waiting, hholds.separate, hholds.known,
        hholds.processes⟩
  | @event _ e hv he =>
    have hrel := hholds.step hv (hproper e rfl)
    rw [he] at hrel
    cases hrelact : e.act a with
    | none =>
      rw [hrelact] at hrel
      cases hrel
    | some a' =>
      rw [hrelact] at hrel
      cases hrel with
      | some hk' =>
        refine ⟨a', ?_, hk'⟩
        rw [actAll] at hact
        simp [actAll, List.reduceOption_append, List.foldlM_append, hact, hrelact]

end Bingos.NodeLists
