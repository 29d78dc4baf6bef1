import Bingos.ListDeques

set_option autoImplicit false

/-! The scheduler's queues as the lists they are: `sched_enqueue` and
`sleep_on` push at the front, `sched_dequeue` and `wakeup_from` pop at the back. -/
namespace Bingos.NodeLists
open PointerChains StepRuns

/-- A call of the list functions, or (`none`) memory outside of all lists
changing hands. -/
inductive Step : Memory × Deques → Option Call → Memory × Deques → Prop where
  | call {m : Memory} {d : Deques} (c : Call) (h : c.Valid d) :
      Step (m, d) (some c) ((c.run m).2, (c.spec d).2)
  | reuse {m m' : Memory} {d : Deques} (h : ∀ l q, d l = some q →
      m'.list l = m.list l ∧ ∀ x ∈ nodes q, m'.node x = m.node x) : Step (m, d) none (m', d)

theorem Represents.reach {m₀ : Memory} {ls : List (Option Call)} {s : Memory × Deques}
    (h : Reach Step (m₀, fun _ => none) ls s) : Represents s.1 s.2 := by
  refine h.invariant (fun _ s => Represents s.1 s.2) (Represents.empty m₀) ?_
  rintro _ _ _ _ _ hi (⟨c, hc⟩ | hsame)
  · exact (hi.call hc).2
  · exact hi.reuse hsame

/-- The queues with the running process. The last three fields record what the
lists hold, and what was put into and taken out of each list in order. -/
structure Kernel where
  lists : Memory
  processQueue : ℕ
  current : ℕ
  deques : Deques
  entered : ℕ → List ℕ
  left : ℕ → List ℕ

def Kernel.enqueue (k : Kernel) (l n p : ℕ) : Kernel :=
  { k with
    lists := listPushFront k.lists l n p
    deques := ((Call.pushFront l n p).spec k.deques).2
    entered := Function.update k.entered l (k.entered l ++ [p]) }

def Kernel.dequeue (k : Kernel) (l : ℕ) : Option ℕ × Kernel :=
  let r := listPopBack k.lists l
  if r.1 = 0 then (none, { k with lists := r.2 })
  else (some (r.2.node r.1).value, { k with
    lists := r.2
    deques := ((Call.popBack l).spec k.deques).2
    left := Function.update k.left l (k.left l ++ [(r.2.node r.1).value]) })

def schedEnqueue (k : Kernel) (n p : ℕ) : Option Kernel :=
  if p = 0 then none else some (k.enqueue k.processQueue n p)

def schedDequeue (k : Kernel) : ℕ × Kernel :=
  ((k.dequeue k.processQueue).1.getD 0, (k.dequeue k.processQueue).2)

/-- `none` is a failed assertion. -/
def switchToNext (k : Kernel) : Option Kernel :=
  if (schedDequeue k).1 = 0 then none
  else some { (schedDequeue k).2 with current := (schedDequeue k).1 }

def contextSwitch (k : Kernel) (reschedule : Bool) (n : ℕ) : Option Kernel :=
  if k.current = 0 then some k
  else if (k.lists.list k.processQueue).head = 0 then some k
  else (if reschedule then schedEnqueue k n k.current else some k).bind switchToNext

def sleepOn (k : Kernel) (queue n : ℕ) : Option Kernel :=
  contextSwitch (k.enqueue queue n k.current) false 0

def wakeupFrom (k : Kernel) (queue n : ℕ) : Option Kernel :=
  match (k.dequeue queue).1 with
  | none => some (k.dequeue queue).2
  | some p => if p = 0 then none else schedEnqueue (k.dequeue queue).2 n p

inductive Event where
  | listCreate (l : ℕ)
  | schedEnqueue (n p : ℕ)
  | switchToNext
  | contextSwitch (reschedule : Bool) (n : ℕ)
  | sleepOn (queue n : ℕ)
  | wakeupFrom (queue n : ℕ)

def Kernel.create (k : Kernel) (l : ℕ) : Kernel :=
  { k with
    lists := listCreate k.lists l
    deques := ((Call.create l).spec k.deques).2
    entered := Function.update k.entered l []
    left := Function.update k.left l [] }

def Event.run (k : Kernel) : Event → Option Kernel
  | .listCreate l => some (k.create l)
  | .schedEnqueue n p => NodeLists.schedEnqueue k n p
  | .switchToNext => NodeLists.switchToNext k
  | .contextSwitch reschedule n => NodeLists.contextSwitch k reschedule n
  | .sleepOn queue n => NodeLists.sleepOn k queue n
  | .wakeupFrom queue n => NodeLists.wakeupFrom k queue n

/-- Lists exist before they are used, and a node is unused when it is
allocated; that of `wakeup_from` may be the one it has just freed. -/
def Event.Valid (k : Kernel) : Event → Prop
  | .listCreate l => k.deques l = none
  | .schedEnqueue n _ => Fresh k.deques n
  | .switchToNext => True
  | .contextSwitch _ n => Fresh k.deques n
  | .sleepOn queue n => (k.deques queue).isSome ∧ Fresh k.deques n
  | .wakeupFrom queue n => (k.deques queue).isSome ∧ Fresh (k.dequeue queue).2.deques n

inductive KernelStep : Kernel → Option Event → Kernel → Prop where
  | event {k k' : Kernel} {e : Event} (h : e.Valid k) (he : e.run k = some k') :
      KernelStep k (some e) k'
  | reuse {k : Kernel} {m' : Memory} (h : ∀ l q, k.deques l = some q →
      m'.list l = k.lists.list l ∧ ∀ x ∈ nodes q, m'.node x = k.lists.node x) :
      KernelStep k none { k with lists := m' }

def schedInit (m : Memory) (processQueue current : ℕ) : Kernel :=
  Kernel.create ⟨m, processQueue, current, fun _ => none, fun _ => [], fun _ => []⟩ processQueue

/-- Each list holds, newest first, what entered it and has not left it. -/
structure Fifo (k : Kernel) : Prop where
  represents : Represents k.lists k.deques
  ready : (k.deques k.processQueue).isSome
  order : ∀ l q, k.deques l = some q →
    k.entered l = k.left l ++ (q.map Entry.value).reverse

variable {k k' : Kernel} {l n : ℕ}

theorem Fifo.create (hrep : Represents k.lists k.deques)
    (horder : ∀ l q, k.deques l = some q →
      k.entered l = k.left l ++ (q.map Entry.value).reverse)
    (hready : k.processQueue = l ∨ (k.deques k.processQueue).isSome) (hl : k.deques l = none) :
    Fifo (k.create l) := by
  refine ⟨hrep.listCreate hl, ?_, fun j q hq => ?_⟩
  · change (Function.update k.deques l (some []) k.processQueue).isSome
    by_cases hj : k.processQueue = l
    · rw [hj, Function.update_self]
      rfl
    · rw [Function.update_of_ne hj]
      exact hready.resolve_left hj
  · change Function.update k.deques l (some []) j = some q at hq
    change Function.update k.entered l [] j = Function.update k.left l [] j ++ _
    by_cases hj : j = l
    · subst hj
      rw [Function.update_self] at hq
      simp [← Option.some.inj hq]
    · rw [Function.update_of_ne hj] at hq
      rw [Function.update_of_ne hj, Function.update_of_ne hj]
      exact horder j q hq

theorem schedInit_fifo (m : Memory) (processQueue current : ℕ) :
    Fifo (schedInit m processQueue current) :=
  Fifo.create (Represents.empty m) (fun _ _ h => by cases h) (Or.inl rfl) rfl

theorem isSome_update {d : Deques} {j : ℕ} {o : Option (List Entry)} (h : (d j).isSome)
    (ho : o.isSome) : (Function.update d l o j).isSome := by
  by_cases hj : j = l
  · subst hj
    rwa [Function.update_self]
  · rwa [Function.update_of_ne hj]

theorem Fifo.enqueue (h : Fifo k) (hl : (k.deques l).isSome)
    (hn : Fresh k.deques n) (p : ℕ) : Fifo (k.enqueue l n p) := by
  obtain ⟨q, hq⟩ := Option.isSome_iff_exists.mp hl
  have hspec : (k.enqueue l n p).deques = Function.update k.deques l (some (⟨n, p⟩ :: q)) := by
    simp only [Kernel.enqueue, Call.spec, hq, Option.map_some]
  refine ⟨?_, ?_, fun j r hr => ?_⟩
  · rw [hspec]
    exact h.represents.listPushFront hq hn p
  · rw [hspec]
    exact isSome_update h.ready rfl
  · rw [hspec] at hr
    change Function.update k.entered l (k.entered l ++ [p]) j = k.left j ++ _
    by_cases hj : j = l
    · subst hj
      rw [Function.update_self] at hr
      rw [Function.update_self, h.order j q hq, ← Option.some.inj hr]
      simp
    · rw [Function.update_of_ne hj] at hr
      rw [Function.update_of_ne hj]
      exact h.order j r hr

theorem listPopBack_value (m : Memory) (l x : ℕ) :
    ((listPopBack m l).2.node x).value = (m.node x).value := by
  unfold listPopBack
  split_ifs
  · rfl
  · rw [listDelete_node]

theorem Fifo.dequeue {q : List Entry} (h : Fifo k) (hq : k.deques l = some q) :
    (k.dequeue l).1 = q.getLast?.map Entry.value ∧ Fifo (k.dequeue l).2 := by
  obtain ⟨hpop, hrep⟩ := h.represents.popBack hq
  cases hlast : q.getLast? with
  | none =>
    have hz : (listPopBack k.lists l).1 = 0 := by rw [hpop, hlast]; rfl
    obtain rfl := List.getLast?_eq_none_iff.mp hlast
    rw [List.dropLast_nil, ← hq, Function.update_eq_self] at hrep
    rw [Kernel.dequeue, if_pos hz]
    exact ⟨rfl, hrep, h.ready, h.order⟩
  | some e =>
    have hz : (listPopBack k.lists l).1 = e.node := by rw [hpop, hlast]; rfl
    have hmem : e ∈ q := List.mem_of_getLast? hlast
    have hne : (listPopBack k.lists l).1 ≠ 0 := by
      rw [hz]
      exact (h.represents.linked l q hq).forward.ne_null _ (List.mem_map_of_mem hmem)
    have hvalue : ((listPopBack k.lists l).2.node (listPopBack k.lists l).1).value = e.value := by
      rw [listPopBack_value, hz]
      exact h.represents.values l q hq e hmem
    have hspec : ((Call.popBack l).spec k.deques).2 =
        Function.update k.deques l (some q.dropLast) := by
      simp only [Call.spec, hq, Option.map_some]
    rw [Kernel.dequeue, if_neg hne, hvalue, hspec]
    refine ⟨rfl, hrep, isSome_update h.ready rfl, fun j r hr => ?_⟩
    change Function.update k.deques l (some q.dropLast) j = some r at hr
    change k.entered j = Function.update k.left l (k.left l ++ [e.value]) j ++ _
    by_cases hj : j = l
    · subst hj
      rw [Function.update_self] at hr
      rw [Function.update_self, h.order j q hq, ← Option.some.inj hr]
      conv_lhs => rw [← List.dropLast_append_getLast? e hlast]
      simp
    · rw [Function.update_of_ne hj] at hr
      rw [Function.update_of_ne hj]
      exact h.order j r hr

theorem Fifo.schedEnqueue {p : ℕ} (h : Fifo k) (hn : Fresh k.deques n)
    (hk : schedEnqueue k n p = some k') : Fifo k' := by
  unfold NodeLists.schedEnqueue at hk
  split_ifs at hk
  exact Option.some.inj hk ▸ h.enqueue h.ready hn p

theorem Fifo.switchToNext (h : Fifo k) (hk : switchToNext k = some k') :
    Fifo k' := by
  obtain ⟨q, hq⟩ := Option.isSome_iff_exists.mp h.ready
  unfold NodeLists.switchToNext at hk
  split_ifs at hk
  have hd := (h.dequeue hq).2
  obtain rfl := Option.some.inj hk
  exact ⟨hd.represents, hd.ready, hd.order⟩

theorem Fifo.contextSwitch {reschedule : Bool} (h : Fifo k)
    (hn : reschedule = true → Fresh k.deques n)
    (hk : contextSwitch k reschedule n = some k') : Fifo k' := by
  unfold NodeLists.contextSwitch at hk
  split_ifs at hk with hc hhead hr
  · exact Option.some.inj hk ▸ h
  · exact Option.some.inj hk ▸ h
  · obtain ⟨u, hu, ht⟩ := Option.bind_eq_some_iff.mp hk
    exact (h.schedEnqueue (hn hr) hu).switchToNext ht
  · exact h.switchToNext hk

theorem Fifo.step {e : Option Event} (h : Fifo k) (hs : KernelStep k e k') :
    Fifo k' := by
  cases hs with
  | reuse hsame => exact ⟨h.represents.reuse hsame, h.ready, h.order⟩
  | @event _ e hv he =>
    cases e with
    | listCreate l =>
      exact Option.some.inj he ▸ Fifo.create h.represents h.order (Or.inr h.ready) hv
    | schedEnqueue n p => exact h.schedEnqueue hv he
    | switchToNext => exact h.switchToNext he
    | contextSwitch reschedule n => exact h.contextSwitch (fun _ => hv) he
    | sleepOn queue n =>
      exact (h.enqueue hv.1 hv.2 k.current).contextSwitch (fun hr => by cases hr) he
    | wakeupFrom queue n =>
      obtain ⟨q, hq⟩ := Option.isSome_iff_exists.mp hv.1
      have hd := (h.dequeue hq).2
      change NodeLists.wakeupFrom k queue n = some k' at he
      unfold NodeLists.wakeupFrom at he
      split at he
      · exact Option.some.inj he ▸ hd
      · split_ifs at he
        exact hd.schedEnqueue hv.2 he

theorem Fresh.pushFront {d : Deques} {n' : ℕ} (l value : ℕ) (h : Fresh d n) (hne : n ≠ n') :
    Fresh ((Call.pushFront l n' value).spec d).2 n := by
  cases hq : d l with
  | none =>
    simp only [Call.spec, hq, Option.map_none]
    rwa [← hq, Function.update_eq_self]
  | some q =>
    simp only [Call.spec, hq, Option.map_some]
    refine h.update (fun hmem => ?_)
    rcases List.mem_cons.mp hmem with he | hmem
    · exact hne he
    · exact h.2 l q hq hmem

end Bingos.NodeLists
