import Bingos.ListDeques
import Bingos.SleepOrder

set_option autoImplicit false

/-! The sleep queue in memory. `list_insert_after` leaves the tail and some back
links stale, so only the forward chain and the back link of its first node are
kept; popping from the front needs no more. -/
namespace Bingos.NodeLists
open PointerChains

structure Forward (m : Memory) (l : ℕ) (ns : List ℕ) : Prop where
  chain : Chain 0 m.next (m.list l).head ns
  first : ∀ x, ns.head? = some x → m.prev x = 0
  length : (m.list l).length = ns.length

variable {m m' : Memory} {l k n : ℕ} {ns pre post : List ℕ}

theorem Forward.frame (h : Forward m l ns) (hlist : m'.list l = m.list l)
    (hnode : ∀ x ∈ ns, m'.node x = m.node x) : Forward m' l ns where
  chain := by
    rw [hlist]
    exact h.chain.congr fun x hx => by rw [Memory.next, Memory.next, hnode x hx]
  first x hx := by
    rw [Memory.prev, hnode x (List.mem_of_head? hx)]
    exact h.first x hx
  length := by
    rw [hlist]
    exact h.length

theorem Forward.head_eq (h : Forward m l ns) : (m.list l).head = ns.head?.getD 0 :=
  h.chain.eq_head

theorem Forward.length_eq_zero_iff (h : Forward m l ns) : (m.list l).length = 0 ↔ ns = [] := by
  rw [h.length, Nat.cast_eq_zero, List.length_eq_zero_iff]

theorem Forward.pushFront (h : Forward m l ns) (hn : n ≠ 0) (hfresh : n ∉ ns) (value : ℕ) :
    Forward (listPushFront m l n value) l (n :: ns) := by
  refine ⟨pushFront_chain h.chain hn hfresh value, fun x hx => ?_, ?_⟩
  · obtain rfl : n = x := by simpa using hx
    rw [Memory.prev, listPushFront_node (ne_head_of_chain h.chain hn hfresh), if_pos rfl]
  · rw [listPushFront_list, if_pos rfl, h.length]
    simp

theorem insertAfter_last (h : Forward m l (pre ++ post)) (hfresh : n ∉ pre ++ post) {y : ℕ}
    (hlast : pre.getLast? = some y) : y ∈ pre ∧ y ≠ 0 ∧ n ≠ y := by
  have hy : y ∈ pre := List.mem_of_getLast? hlast
  have hmem : y ∈ pre ++ post := List.mem_append_left _ hy
  exact ⟨hy, h.chain.ne_null y hmem, fun heq => hfresh (heq ▸ hmem)⟩

theorem Forward.insertAfter (h : Forward m l (pre ++ post)) (hn : n ≠ 0) (hfresh : n ∉ pre ++ post)
    (value : ℕ) :
    Forward (listInsertAfter m l (pre.getLast?.getD 0) n value) l (pre ++ n :: post) := by
  cases hlast : pre.getLast? with
  | none =>
    obtain rfl := List.getLast?_eq_none_iff.mp hlast
    exact h.pushFront hn hfresh value
  | some x =>
    obtain ⟨hxmem, hx, hnx⟩ := insertAfter_last h hfresh hlast
    have hne : pre ≠ [] := fun hnil => by simp [hnil] at hxmem
    rw [Option.getD_some]
    have hnode := fun b => listInsertAfter_node m l n b value hx hnx
    have hlist := fun k => listInsertAfter_list m l k n value hx
    have hsplit : pre = pre.dropLast ++ [x] := (List.dropLast_append_getLast? x hlast).symm
    have hnext : (m.node x).next = post.head?.getD 0 := by
      have hc := h.chain
      rw [hsplit, List.append_assoc, List.singleton_append] at hc
      exact hc.after.2.eq_head
    refine ⟨?_, fun y hy => ?_, ?_⟩
    · have hins : Chain 0 (listInsertAfter m l x n value).next
          (if pre = [] then n else (m.list l).head) (pre ++ n :: post) := by
        refine h.chain.insert hn ?_ (fun y hy => ?_) (fun y hy hy' => ?_)
        · rw [Memory.next, hnode, if_pos rfl, hnext]
        · obtain rfl : x = y := Option.some.inj (hlast.symm.trans hy)
          rw [Memory.next, hnode, if_neg hnx.symm, if_pos rfl]
        · have hyn : y ≠ n := fun heq => hfresh (heq ▸ hy)
          have hyx : y ≠ x := fun heq => hy' (heq ▸ hlast)
          rw [Memory.next, hnode, if_neg hyn, if_neg hyx]
          rfl
      rw [if_neg hne] at hins
      rw [hlist, if_pos rfl]
      exact hins
    · have hy0 : (pre ++ post).head? = some y := by
        cases pre with
        | nil => exact absurd rfl hne
        | cons a pre => simpa using hy
      have hyn : y ≠ n := fun heq => hfresh (heq ▸ List.mem_of_head? hy0)
      rw [Memory.prev, hnode, if_neg hyn]
      split_ifs <;> exact h.first y hy0
    · rw [hlist, if_pos rfl, h.length]
      simp only [List.length_append, List.length_cons]
      push_cast
      ring

theorem insertAfter_value (h : Forward m l (pre ++ post)) (hn : n ≠ 0) (hfresh : n ∉ pre ++ post)
    (value x : ℕ) :
    ((listInsertAfter m l (pre.getLast?.getD 0) n value).node x).value =
      if x = n then value else (m.node x).value := by
  cases hlast : pre.getLast? with
  | none =>
    obtain rfl := List.getLast?_eq_none_iff.mp hlast
    exact pushFront_value h.chain hn hfresh value x
  | some y =>
    obtain ⟨_, hy, hny⟩ := insertAfter_last h hfresh hlast
    rw [Option.getD_some, listInsertAfter_node m l n x value hy hny]
    split_ifs <;> rfl

theorem insertAfter_list_of_ne (prev value : ℕ) (hk : k ≠ l) :
    (listInsertAfter m l prev n value).list k = m.list k := by
  by_cases hp : prev = 0
  · rw [listInsertAfter, if_pos hp, listPushFront_list, if_neg hk]
  · rw [listInsertAfter_list m l k n value hp, if_neg hk]

variable {x : ℕ}

theorem insertAfter_node (h : Forward m l (pre ++ post)) (hn : n ≠ 0) (hfresh : n ∉ pre ++ post)
    (value : ℕ) (hxn : x ≠ n) (hx : x ∉ pre ++ post) :
    (listInsertAfter m l (pre.getLast?.getD 0) n value).node x = m.node x := by
  cases hlast : pre.getLast? with
  | none =>
    obtain rfl := List.getLast?_eq_none_iff.mp hlast
    exact pushFront_node h.chain hn hfresh value hxn hx
  | some y =>
    obtain ⟨hmem, hy, hny⟩ := insertAfter_last h hfresh hlast
    have hxy : x ≠ y := fun heq => hx (heq ▸ List.mem_append_left _ hmem)
    rw [Option.getD_some, listInsertAfter_node m l n x value hy hny, if_neg hxn, if_neg hxy]

theorem Forward.popFront (h : Forward m l (x :: ns)) :
    (listPopFront m l).1 = x ∧ Forward (listPopFront m l).2 l ns ∧
      (∀ y, y ∉ ns → (listPopFront m l).2.node y = m.node y) ∧
      (∀ y, ((listPopFront m l).2.node y).value = (m.node y).value) ∧
      ∀ k ≠ l, (listPopFront m l).2.list k = m.list k := by
  have hhead : (m.list l).head = x := h.chain.1
  have hx : x ≠ 0 := h.chain.2.1
  have hprev : (m.node x).prev = 0 := h.first x rfl
  have hrest : Chain 0 m.next ((m.node x).next) ns := h.chain.2.2
  have hpop : listPopFront m l = (x, listDelete m l x) := by
    rw [listPopFront, hhead, if_neg hx]
  have hnode : ∀ y, (listDelete m l x).node y =
      ⟨if (m.node x).next ≠ 0 ∧ y = (m.node x).next then 0 else (m.node y).prev,
        (m.node y).next, (m.node y).value⟩ := by
    intro y
    rw [listDelete_node, hprev]
    simp
  have hnext : ∀ y, (listDelete m l x).next y = m.next y := fun y => by
    rw [Memory.next, hnode]
    rfl
  rw [hpop]
  refine ⟨rfl, ⟨?_, fun y hy => ?_, ?_⟩, fun y hy => ?_, fun y => by rw [hnode], fun k hk => ?_⟩
  · rw [listDelete_list, if_pos rfl, hhead, if_pos rfl]
    exact hrest.congr fun y _ => hnext y
  · have hy' : (m.node x).next = y := by rw [hrest.eq_head, hy, Option.getD_some]
    rw [Memory.prev, hnode, if_pos ⟨hy' ▸ hrest.ne_null y (List.mem_of_head? hy), hy'.symm⟩]
  · rw [listDelete_list, if_pos rfl, h.length]
    simp
  · rw [hnode, if_neg]
    rintro ⟨hz, rfl⟩
    exact hy (hrest.start_mem hz)
  · rw [listDelete_list, if_neg hk]

end Bingos.NodeLists

namespace Bingos.SleepLists
open PointerChains StepRuns NodeLists Scheduler

/-- The heap, as far as the queues see it: the address of the next block while
the given ones are in use, and what becomes of the contents of a freed node. -/
structure Allocator where
  kmalloc : Finset ℕ → ℕ
  freed : ℕ → Node

def Allocator.Sound (a : Allocator) : Prop := ∀ live, a.kmalloc live ≠ 0 ∧ a.kmalloc live ∉ live

structure State where
  lists : Memory
  live : Finset ℕ
  pcb : ℕ → Pcb
  sleepQueue : ℕ
  processQueue : ℕ

def insertionPoint (m : Memory) (pcb : ℕ → Pcb) (seconds subseconds : ℕ) : ℕ → ℕ → ℕ → Option ℕ
  | 0, _, _ => none
  | fuel + 1, node, prev =>
    if node = 0 then some prev
    else if later (pcb (m.node node).value) seconds subseconds then some prev
    else insertionPoint m pcb seconds subseconds fuel (m.node node).next node

def sleepEnqueue (a : Allocator) (fuel : ℕ) (k : State) (p seconds subseconds : ℕ) :
    Option State :=
  (insertionPoint k.lists k.pcb seconds subseconds fuel (k.lists.list k.sleepQueue).head 0).map
    fun prev => { k with
      pcb := Function.update k.pcb p { k.pcb p with endTick := seconds, endSubtick := subseconds }
      lists := listInsertAfter k.lists k.sleepQueue prev (a.kmalloc k.live) p
      live := k.live ∪ {a.kmalloc k.live} }

def schedEnqueue (a : Allocator) (k : State) (p : ℕ) : State :=
  { k with
    lists := listPushFront k.lists k.processQueue (a.kmalloc k.live) p
    live := k.live ∪ {a.kmalloc k.live} }

def dropSleeper (a : Allocator) (k : State) : State :=
  { k with
    lists := (listPopFront k.lists k.sleepQueue).2.setNode (listPopFront k.lists k.sleepQueue).1
      (a.freed (listPopFront k.lists k.sleepQueue).1)
    live := k.live.erase (listPopFront k.lists k.sleepQueue).1 }

/-- `none` is the NULL that `sched_dequeue` returns on an empty queue. -/
def schedDequeue (a : Allocator) (k : State) : Option ℕ × State :=
  if (listPopBack k.lists k.processQueue).1 = 0 then (none, k)
  else
    (some ((listPopBack k.lists k.processQueue).2.node
      (listPopBack k.lists k.processQueue).1).value,
    { k with
      lists := (listPopBack k.lists k.processQueue).2.setNode
        (listPopBack k.lists k.processQueue).1 (a.freed (listPopBack k.lists k.processQueue).1)
      live := k.live.erase (listPopBack k.lists k.processQueue).1 })

def resetPcb (k : State) (p : ℕ) : State :=
  { k with
    pcb := Function.update k.pcb p { k.pcb p with endTick := 0, endSubtick := 0, status := 0 } }

/-- The loop of `process_wakeup_sleepers`; `none` is a failed assertion or the
end of the fuel. -/
def wakeupLoop (a : Allocator) (ticks subticks : ℕ) : ℕ → ℕ → State → Option State
  | 0, _, _ => none
  | fuel + 1, p, k =>
    if p ≠ 0 ∧ due (k.pcb p) ticks subticks = true then
      let k := dropSleeper a (schedEnqueue a (resetPcb k p) p)
      if (k.lists.list k.sleepQueue).length ≠ 0 then
        if (k.lists.list k.sleepQueue).head = 0 then none
        else wakeupLoop a ticks subticks fuel
          (k.lists.node (k.lists.list k.sleepQueue).head).value k
      else some k
    else some k

def processWakeupSleepers (a : Allocator) (fuel : ℕ) (k : State) (ticks subticks : ℕ) :
    Option State :=
  if (k.lists.list k.sleepQueue).length ≠ 0 then
    wakeupLoop a ticks subticks fuel (k.lists.node (k.lists.list k.sleepQueue).head).value k
  else some k

def value (m : Memory) (x : ℕ) : ℕ := (m.node x).value

structure Holds (k : State) (s : Sched) (ss rs : List ℕ) : Prop where
  sleep : Forward k.lists k.sleepQueue ss
  ready : Linked k.lists k.processQueue rs
  apart : ∀ x ∈ ss, x ∉ rs
  live : ∀ x, x ∈ ss ∨ x ∈ rs → x ∈ k.live
  queues : k.sleepQueue ≠ k.processQueue
  sleepers : ss.map (value k.lists) = s.sleepQueue
  readies : rs.map (value k.lists) = s.processQueue
  pcb : k.pcb = s.pcb

variable {a : Allocator} {rs ss ns : List ℕ} {m : Memory} {s : Sched} {k k' : State}
  {fuel fuel' x node p prev seconds subseconds subticks ticks : ℕ} {pcb : ℕ → Pcb}

theorem Holds.fresh (h : Holds k s ss rs)
    (ha : a.Sound) : a.kmalloc k.live ≠ 0 ∧ a.kmalloc k.live ∉ ss ∧ a.kmalloc k.live ∉ rs :=
  ⟨(ha k.live).1, fun hx => (ha k.live).2 (h.live _ (Or.inl hx)),
    fun hx => (ha k.live).2 (h.live _ (Or.inr hx))⟩

theorem insertionPoint_eq (seconds subseconds : ℕ) (h : Chain 0 m.next node ns)
    (hfuel : ns.length < fuel) :
    insertionPoint m pcb seconds subseconds fuel node prev =
      some ((ns.takeWhile fun x => !later (pcb (value m x)) seconds subseconds).getLast?.getD
        prev) := by
  induction ns generalizing fuel node prev with
  | nil =>
    obtain ⟨fuel, rfl⟩ := Nat.exists_eq_succ_of_ne_zero (Nat.ne_of_gt hfuel)
    have hz : node = 0 := h
    rw [insertionPoint, if_pos hz]
    rfl
  | cons x ns ih =>
    obtain ⟨fuel, rfl⟩ := Nat.exists_eq_succ_of_ne_zero (Nat.ne_zero_of_lt hfuel)
    obtain ⟨rfl, hx, hrest⟩ := h
    rw [insertionPoint, if_neg hx, List.takeWhile_cons]
    change (if later (pcb (value m node)) seconds subseconds = true then _ else _) = _
    cases hl : later (pcb (value m node)) seconds subseconds with
    | true => rfl
    | false =>
      rw [if_neg (by decide)]
      refine (ih hrest (by simpa using hfuel)).trans ?_
      simp only [Bool.not_false, if_true, List.getLast?_cons, Option.getD_some]

theorem insertionPoint_mono {v : ℕ}
    (hle : fuel ≤ fuel') (h : insertionPoint m pcb seconds subseconds fuel node prev = some v) :
    insertionPoint m pcb seconds subseconds fuel' node prev = some v := by
  induction fuel generalizing fuel' node prev with
  | zero => cases h
  | succ fuel ih =>
    obtain ⟨fuel', rfl⟩ := Nat.exists_eq_succ_of_ne_zero (Nat.ne_zero_of_lt hle)
    rw [insertionPoint] at h ⊢
    split_ifs at h ⊢
    · exact h
    · exact h
    · exact ih (Nat.le_of_succ_le_succ hle) h

theorem wakeupLoop_mono (hle : fuel ≤ fuel') (h : wakeupLoop a ticks subticks fuel p k = some k') :
    wakeupLoop a ticks subticks fuel' p k = some k' := by
  induction fuel generalizing fuel' p k with
  | zero => cases h
  | succ fuel ih =>
    obtain ⟨fuel', rfl⟩ := Nat.exists_eq_succ_of_ne_zero (Nat.ne_zero_of_lt hle)
    rw [wakeupLoop] at h ⊢
    dsimp only at h ⊢
    split_ifs at h ⊢
    · exact ih (Nat.le_of_succ_le_succ hle) h
    · exact h
    · exact h

theorem sleepEnqueue_mono
    (hle : fuel ≤ fuel') (h : sleepEnqueue a fuel k p seconds subseconds = some k') :
    sleepEnqueue a fuel' k p seconds subseconds = some k' := by
  obtain ⟨prev, hpoint, rfl⟩ := Option.map_eq_some_iff.mp h
  rw [sleepEnqueue, insertionPoint_mono hle hpoint, Option.map_some]

theorem processWakeupSleepers_mono
    (hle : fuel ≤ fuel') (h : processWakeupSleepers a fuel k ticks subticks = some k') :
    processWakeupSleepers a fuel' k ticks subticks = some k' := by
  unfold processWakeupSleepers at h ⊢
  split_ifs at h ⊢
  · exact wakeupLoop_mono hle h
  · exact h

theorem map_value_congr {m' : Memory} (h : ∀ x ∈ ns, (m'.node x).value = (m.node x).value) :
    ns.map (value m') = ns.map (value m) :=
  List.map_congr_left h

theorem Holds.insertSleeper {pre post : List ℕ} {n : ℕ} (h : Holds k s (pre ++ post) rs)
    (hn : n ≠ 0) (hns : n ∉ pre ++ post) (hnr : n ∉ rs) (p : ℕ) (pcb : ℕ → Pcb) :
    Holds { k with
        lists := listInsertAfter k.lists k.sleepQueue (pre.getLast?.getD 0) n p
        live := k.live ∪ {n}
        pcb := pcb }
      { s with
        sleepQueue := pre.map (value k.lists) ++ p :: post.map (value k.lists)
        pcb := pcb } (pre ++ n :: post) rs := by
  have hvalue := insertAfter_value h.sleep hn hns p
  have hne : ∀ x ∈ pre ++ post, x ≠ n := fun x hx heq => hns (heq ▸ hx)
  have hner : ∀ x ∈ rs, x ≠ n := fun x hx heq => hnr (heq ▸ hx)
  refine ⟨h.sleep.insertAfter hn hns p, ?_, fun x hx => ?_, fun x hx => ?_, h.queues, ?_, ?_, rfl⟩
  · refine h.ready.frame (insertAfter_list_of_ne _ _ h.queues.symm) fun x hx => ?_
    exact insertAfter_node h.sleep hn hns p (hner x hx) fun hmem => h.apart x hmem hx
  · rcases List.mem_append.mp hx with hx | hx
    · exact h.apart x (List.mem_append_left _ hx)
    · rcases List.mem_cons.mp hx with rfl | hx
      · exact hnr
      · exact h.apart x (List.mem_append_right _ hx)
  · rw [Finset.mem_union, Finset.mem_singleton]
    by_cases hxn : x = n
    · exact Or.inr hxn
    · refine Or.inl (h.live x (hx.imp_left fun hmem => ?_))
      rw [List.mem_append, List.mem_cons] at hmem
      rw [List.mem_append]
      tauto
  · have hpre := map_value_congr fun x (hx : x ∈ pre) =>
      (hvalue x).trans (if_neg (hne x (List.mem_append_left _ hx)))
    have hpost := map_value_congr fun x (hx : x ∈ post) =>
      (hvalue x).trans (if_neg (hne x (List.mem_append_right _ hx)))
    rw [List.map_append, List.map_cons, hpre, hpost, value, hvalue, if_pos rfl]
  · exact (map_value_congr fun x hx => (hvalue x).trans (if_neg (hner x hx))).trans h.readies

theorem Holds.sleepEnqueue (h : Holds k s ss rs) (ha : a.Sound) (p seconds subseconds : ℕ)
    (hfuel : ss.length < fuel) :
    ∃ k' ss', sleepEnqueue a fuel k p seconds subseconds = some k' ∧
      Holds k' (Scheduler.sleepEnqueue s p seconds subseconds) ss' rs := by
  obtain ⟨hn, hns, hnr⟩ := h.fresh ha
  let early : ℕ → Bool := fun x => !later (k.pcb (value k.lists x)) seconds subseconds
  have hsplit : ss.takeWhile early ++ ss.dropWhile early = ss := List.takeWhile_append_dropWhile
  have hpoint : insertionPoint k.lists k.pcb seconds subseconds fuel
      (k.lists.list k.sleepQueue).head 0 = some ((ss.takeWhile early).getLast?.getD 0) :=
    insertionPoint_eq seconds subseconds h.sleep.chain hfuel
  have hins := Holds.insertSleeper (hsplit.symm ▸ h) hn (hsplit.symm ▸ hns) hnr p
    (Function.update k.pcb p { k.pcb p with endTick := seconds, endSubtick := subseconds })
  refine ⟨_, ss.takeWhile early ++ a.kmalloc k.live :: ss.dropWhile early,
    by rw [SleepLists.sleepEnqueue, hpoint, Option.map_some], ?_⟩
  have hqueue : (Scheduler.sleepEnqueue s p seconds subseconds).sleepQueue =
      (ss.takeWhile early).map (value k.lists) ++ p ::
        (ss.dropWhile early).map (value k.lists) := by
    simp only [Scheduler.sleepEnqueue, ← h.sleepers, ← h.pcb, List.takeWhile_map,
      List.dropWhile_map]
    rfl
  refine ⟨hins.sleep, hins.ready, hins.apart, hins.live, hins.queues, ?_, hins.readies, ?_⟩
  · rw [hqueue]
    exact hins.sleepers
  · rw [Scheduler.sleepEnqueue, h.pcb]

theorem Holds.schedEnqueue (h : Holds k s ss rs) (ha : a.Sound) (p : ℕ) :
    Holds (schedEnqueue a k p) (Scheduler.schedEnqueue s p) ss (a.kmalloc k.live :: rs) := by
  obtain ⟨hn, hns, hnr⟩ := h.fresh ha
  have hnode : ∀ x ∈ ss, (SleepLists.schedEnqueue a k p).lists.node x = k.lists.node x := by
    intro x hx
    have hxn : x ≠ a.kmalloc k.live := fun heq => hns (heq ▸ hx)
    exact pushFront_node h.ready.forward hn hnr p hxn (h.apart x hx)
  refine ⟨h.sleep.frame ?_ hnode, h.ready.pushFront hn hnr p, fun x hx => ?_, fun x hx => ?_,
    h.queues, ?_, ?_, h.pcb⟩
  · exact (listPushFront_list ..).trans (if_neg h.queues)
  · rw [List.mem_cons]
    rintro (rfl | hxr)
    · exact hns hx
    · exact h.apart x hx hxr
  · rw [SleepLists.schedEnqueue, Finset.mem_union, Finset.mem_singleton]
    rcases hx with hx | hx
    · exact Or.inl (h.live x (Or.inl hx))
    · rcases List.mem_cons.mp hx with rfl | hx
      · exact Or.inr rfl
      · exact Or.inl (h.live x (Or.inr hx))
  · exact (map_value_congr fun x hx => by rw [hnode x hx]).trans h.sleepers
  · have hvalue := pushFront_value h.ready.forward hn hnr p
    have hrest : rs.map (value (SleepLists.schedEnqueue a k p).lists) = rs.map (value k.lists) := by
      refine map_value_congr fun x hx => (hvalue x).trans (if_neg ?_)
      rintro rfl
      exact hnr hx
    rw [List.map_cons, hrest, h.readies, value, SleepLists.schedEnqueue, hvalue, if_pos rfl]
    rfl

theorem Holds.free (h : Holds k s ss rs) (hs : x ∉ ss) (hr : x ∉ rs) (v : Node) :
    Holds { k with
      lists := k.lists.setNode x v
      live := k.live.erase x } s ss rs := by
  have hne : ∀ y, y ∈ ss ∨ y ∈ rs → y ≠ x := by
    rintro y hy rfl
    exact hy.elim hs hr
  have hnode : ∀ y, y ∈ ss ∨ y ∈ rs → (k.lists.setNode x v).node y = k.lists.node y :=
    fun y hy => (setNode_node k.lists x y v).trans (if_neg (hne y hy))
  refine ⟨h.sleep.frame rfl fun y hy => hnode y (Or.inl hy),
    h.ready.frame rfl fun y hy => hnode y (Or.inr hy), h.apart,
    fun y hy => Finset.mem_erase.mpr ⟨hne y hy, h.live y hy⟩, h.queues, ?_, ?_, h.pcb⟩
  · exact (map_value_congr fun y hy => by rw [hnode y (Or.inl hy)]).trans h.sleepers
  · exact (map_value_congr fun y hy => by rw [hnode y (Or.inr hy)]).trans h.readies

theorem Holds.dropSleeper (a : Allocator) (h : Holds k s (x :: ss) rs) :
    Holds (dropSleeper a k) { s with sleepQueue := s.sleepQueue.tail } ss rs := by
  obtain ⟨hpop, hsleep, hnode, hvalue, hlist⟩ := h.sleep.popFront
  have hxs : x ∉ ss := (List.nodup_cons.mp h.sleep.chain.nodup).1
  have htaken : Holds { k with lists := (listPopFront k.lists k.sleepQueue).2 }
      { s with sleepQueue := s.sleepQueue.tail } ss rs := by
    refine ⟨hsleep, h.ready.frame (hlist _ h.queues.symm) fun y hy => ?_,
      fun y hy => h.apart y (List.mem_cons_of_mem _ hy),
      fun y hy => h.live y (hy.imp_left (List.mem_cons_of_mem _)), h.queues, ?_, ?_, h.pcb⟩
    · exact hnode y fun hys => h.apart y (List.mem_cons_of_mem _ hys) hy
    · rw [map_value_congr fun y _ => hvalue y, ← h.sleepers]
      rfl
    · exact (map_value_congr fun y _ => hvalue y).trans h.readies
  rw [SleepLists.dropSleeper, hpop]
  exact htaken.free hxs (h.apart x List.mem_cons_self) (a.freed x)

/-- One round of the loop: the first sleeper moves to the ready queue. -/
theorem Holds.wake (h : Holds k s (x :: ss) rs) (ha : a.Sound) (p : ℕ) :
    Holds (SleepLists.dropSleeper a (SleepLists.schedEnqueue a (resetPcb k p) p))
      (Scheduler.schedEnqueue { s with
        pcb := Function.update s.pcb p { s.pcb p with endTick := 0, endSubtick := 0, status := 0 }
        sleepQueue := s.sleepQueue.tail } p) ss (a.kmalloc k.live :: rs) := by
  have hreset : Holds (resetPcb k p) { s with
      pcb := Function.update s.pcb p { s.pcb p with endTick := 0, endSubtick := 0, status := 0 } }
      (x :: ss) rs :=
    ⟨h.sleep, h.ready, h.apart, h.live, h.queues, h.sleepers, h.readies, by
      rw [resetPcb, h.pcb]⟩
  exact (hreset.schedEnqueue ha p).dropSleeper a

theorem Holds.wakeupLoop (h : Holds k s (x :: ss) rs) (ha : a.Sound)
    (hpos : ∀ p ∈ s.sleepQueue, p ≠ 0) (ticks subticks : ℕ) (hfuel : ss.length < fuel) :
    ∃ k' ss' rs', wakeupLoop a ticks subticks fuel (value k.lists x) k = some k' ∧
      Holds k' (Scheduler.wakeupLoop ticks subticks s.sleepQueue s) ss' rs' := by
  induction ss generalizing s k x rs fuel with
  | nil =>
    obtain ⟨fuel, rfl⟩ := Nat.exists_eq_succ_of_ne_zero (Nat.ne_zero_of_lt hfuel)
    have hqueue : s.sleepQueue = [value k.lists x] := h.sleepers.symm
    have hx : value k.lists x ≠ 0 := hpos _ (by simp [hqueue])
    rw [SleepLists.wakeupLoop, hqueue, Scheduler.wakeupLoop, h.pcb]
    by_cases hdue : due (s.pcb (value k.lists x)) ticks subticks = true
    · have hwake := h.wake ha (value k.lists x)
      rw [if_pos ⟨hx, hdue⟩, if_pos hdue, if_neg (not_not.mpr (hwake.sleep.length_eq_zero_iff.mpr rfl))]
      rw [hqueue] at hwake
      exact ⟨_, _, _, rfl, hwake⟩
    · rw [if_neg fun hc => hdue hc.2, if_neg hdue, ← hqueue]
      exact ⟨_, _, _, rfl, h⟩
  | cons y ss ih =>
    obtain ⟨fuel, rfl⟩ := Nat.exists_eq_succ_of_ne_zero (Nat.ne_zero_of_lt hfuel)
    have hqueue : s.sleepQueue = value k.lists x :: (y :: ss).map (value k.lists) :=
      h.sleepers.symm
    have hx : value k.lists x ≠ 0 := hpos _ (by simp [hqueue])
    rw [SleepLists.wakeupLoop, hqueue, Scheduler.wakeupLoop, h.pcb]
    by_cases hdue : due (s.pcb (value k.lists x)) ticks subticks = true
    · have hwake := h.wake ha (value k.lists x)
      have hhead : _ = y := hwake.sleep.head_eq
      have hy : y ≠ 0 := hwake.sleep.chain.ne_null y (by simp)
      rw [if_pos ⟨hx, hdue⟩, if_pos hdue,
        if_pos (mt hwake.sleep.length_eq_zero_iff.mp (List.cons_ne_nil y ss)),
        if_neg (hhead.trans_ne hy), hhead]
      rw [hqueue] at hwake
      refine ih hwake (fun p hp => hpos p ?_) (by simpa using hfuel)
      rw [hqueue]
      exact List.mem_cons_of_mem _ hp
    · rw [if_neg fun hc => hdue hc.2, if_neg hdue, ← hqueue]
      exact ⟨_, _, _, rfl, h⟩

theorem Holds.processWakeupSleepers (h : Holds k s ss rs) (ha : a.Sound)
    (hpos : ∀ p ∈ s.sleepQueue, p ≠ 0) (ticks subticks : ℕ) (hfuel : ss.length < fuel) :
    ∃ k' ss' rs', processWakeupSleepers a fuel k ticks subticks = some k' ∧
      Holds k' (Scheduler.processWakeupSleepers s ticks subticks) ss' rs' := by
  unfold SleepLists.processWakeupSleepers
  cases ss with
  | nil =>
    have hqueue : s.sleepQueue = [] := h.sleepers.symm
    have hsame : Scheduler.processWakeupSleepers s ticks subticks = s := by
      rw [Scheduler.processWakeupSleepers, hqueue, Scheduler.wakeupLoop, ← hqueue]
    rw [if_neg (not_not.mpr (h.sleep.length_eq_zero_iff.mpr rfl)), hsame]
    exact ⟨k, [], rs, rfl, h⟩
  | cons x ss =>
    have hhead : (k.lists.list k.sleepQueue).head = x := h.sleep.head_eq
    rw [if_pos (mt h.sleep.length_eq_zero_iff.mp (List.cons_ne_nil x ss)), hhead]
    exact h.wakeupLoop ha hpos ticks subticks (Nat.lt_of_succ_lt hfuel)

theorem Holds.schedDequeue_nil (a : Allocator)
    (h : Holds k s ss []) : schedDequeue a k = (none, k) := by
  have htail : (k.lists.list k.processQueue).tail = 0 := h.ready.tail_eq
  have hpop : listPopBack k.lists k.processQueue = (0, k.lists) := if_pos htail
  rw [schedDequeue, hpop, if_pos rfl]

theorem Holds.schedDequeue_concat (a : Allocator) (h : Holds k s ss (rs ++ [x])) :
    Holds (schedDequeue a k).2 { s with processQueue := s.processQueue.dropLast } ss rs := by
  have hx0 : x ≠ 0 := h.ready.forward.ne_null x (by simp)
  have htail : (k.lists.list k.processQueue).tail = x := by simpa using h.ready.tail_eq
  have hpop : listPopBack k.lists k.processQueue = (x, listDelete k.lists k.processQueue x) := by
    rw [listPopBack, htail, if_neg hx0]
  have hready := h.ready.delete
  rw [List.append_nil] at hready
  have hxr : x ∉ rs := fun hx =>
    (List.nodup_append.mp h.ready.forward.nodup).2.2 x hx x List.mem_cons_self rfl
  have hvalue : ∀ y, ((listDelete k.lists k.processQueue x).node y).value =
      (k.lists.node y).value := fun y => by rw [listDelete_node]
  have htaken : Holds { k with lists := listDelete k.lists k.processQueue x }
      { s with processQueue := s.processQueue.dropLast } ss rs := by
    refine ⟨h.sleep.frame ((listDelete_list ..).trans (if_neg h.queues)) fun y hy => ?_, hready,
      fun y hy hyr => h.apart y hy (List.mem_append_left _ hyr),
      fun y hy => h.live y (hy.imp_right (List.mem_append_left _)), h.queues, ?_, ?_, h.pcb⟩
    · refine h.ready.delete_node fun hyr => h.apart y hy (List.mem_append_left _ ?_)
      exact List.append_nil rs ▸ hyr
    · exact (map_value_congr fun y _ => hvalue y).trans h.sleepers
    · rw [map_value_congr fun y _ => hvalue y, ← h.readies, List.map_append]
      simp
  rw [schedDequeue, hpop, if_neg hx0]
  exact htaken.free (fun hx => h.apart x hx (by simp)) hxr (a.freed x)

end Bingos.SleepLists
