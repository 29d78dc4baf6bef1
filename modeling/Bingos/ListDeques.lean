import Bingos.ListModel
import Bingos.StepRuns

set_option autoImplicit false

/-! The lists of `list.c` as deques: a list with its nodes is one sequence read
from either end, and the operations act on it as those of a deque. -/
namespace Bingos.NodeLists
open PointerChains StepRuns

def Memory.next (m : Memory) (a : ℕ) : ℕ := (m.node a).next

def Memory.prev (m : Memory) (a : ℕ) : ℕ := (m.node a).prev

structure Linked (m : Memory) (l : ℕ) (ns : List ℕ) : Prop where
  forward : Chain 0 m.next (m.list l).head ns
  backward : Chain 0 m.prev (m.list l).tail ns.reverse
  length : (m.list l).length = ns.length

variable {m m' : Memory} {l k n : ℕ} {ns pre post : List ℕ}

theorem Linked.mirror (h : Linked m l ns) : Linked m.mirror l ns.reverse where
  forward := h.backward
  backward := by
    rw [List.reverse_reverse]
    exact h.forward
  length := by
    rw [List.length_reverse]
    exact h.length

theorem Linked.head_eq_zero_iff (h : Linked m l ns) : (m.list l).head = 0 ↔ ns = [] :=
  h.forward.eq_null_iff

theorem Linked.tail_eq_zero_iff (h : Linked m l ns) : (m.list l).tail = 0 ↔ ns = [] := by
  rw [← List.reverse_eq_nil_iff]
  exact h.backward.eq_null_iff

theorem Linked.head_eq (h : Linked m l ns) : (m.list l).head = ns.head?.getD 0 :=
  h.forward.eq_head

theorem Linked.tail_eq (h : Linked m l ns) : (m.list l).tail = ns.getLast?.getD 0 := by
  rw [← List.head?_reverse]
  exact h.backward.eq_head

theorem Linked.frame (h : Linked m l ns) (hlist : m'.list l = m.list l)
    (hnode : ∀ x ∈ ns, m'.node x = m.node x) : Linked m' l ns where
  forward := by
    rw [hlist]
    exact h.forward.congr fun x hx => by rw [Memory.next, Memory.next, hnode x hx]
  backward := by
    rw [hlist]
    exact h.backward.congr fun x hx => by
      rw [Memory.prev, Memory.prev, hnode x (List.mem_reverse.mp hx)]
  length := by
    rw [hlist]
    exact h.length

/-! Pushing to the front, from the forward chain alone. -/
section PushFront

variable (h : Chain 0 m.next (m.list l).head ns) (hn : n ≠ 0) (hfresh : n ∉ ns)
include h hn hfresh

theorem ne_head_of_chain :
    n ≠ (m.list l).head := by
  rintro rfl
  exact hfresh (h.start_mem hn)

theorem pushFront_chain (value : ℕ) :
    Chain 0 (listPushFront m l n value).next ((listPushFront m l n value).list l).head
      (n :: ns) := by
  have hnode := listPushFront_node (ne_head_of_chain h hn hfresh) value
  rw [listPushFront_list, if_pos rfl]
  refine ⟨rfl, hn, ?_⟩
  have hnext : (listPushFront m l n value).next n = (m.list l).head := by
    rw [Memory.next, hnode, if_pos rfl]
  rw [hnext]
  refine h.congr fun x hx => ?_
  have hxn : x ≠ n := fun heq => hfresh (heq ▸ hx)
  rw [Memory.next, hnode, if_neg hxn]
  split_ifs <;> rfl

theorem pushFront_value (value x : ℕ) :
    ((listPushFront m l n value).node x).value = if x = n then value else (m.node x).value := by
  rw [listPushFront_node (ne_head_of_chain h hn hfresh) value]
  split_ifs <;> rfl

theorem pushFront_node (value : ℕ) {x : ℕ} (hxn : x ≠ n) (hx : x ∉ ns) :
    (listPushFront m l n value).node x = m.node x := by
  rw [listPushFront_node (ne_head_of_chain h hn hfresh), if_neg hxn, if_neg]
  rintro ⟨hz, rfl⟩
  exact hx (h.start_mem hz)

end PushFront

theorem Linked.pushFront (h : Linked m l ns) (hn : n ≠ 0) (hfresh : n ∉ ns) (value : ℕ) :
    Linked (listPushFront m l n value) l (n :: ns) := by
  have hnode := listPushFront_node (ne_head_of_chain h.forward hn hfresh) value
  have hne : ∀ x ∈ ns, x ≠ n := fun x hx heq => hfresh (heq ▸ hx)
  refine ⟨pushFront_chain h.forward hn hfresh value, ?_, ?_⟩
  · have htail : ((listPushFront m l n value).list l).tail =
        if ns.reverse = [] then n else (m.list l).tail := by
      rw [listPushFront_list, if_pos rfl]
      exact if_congr (h.head_eq_zero_iff.trans List.reverse_eq_nil_iff.symm) rfl rfl
    rw [htail, List.reverse_cons]
    refine h.backward.snoc hn ?_ (fun y hy => ?_) (fun y hy hlast => ?_)
    · rw [Memory.prev, hnode, if_pos rfl]
    · rw [List.getLast?_reverse] at hy
      have hmem := List.mem_of_head? hy
      have hhead : (m.list l).head = y := by rw [h.head_eq, hy, Option.getD_some]
      have hz : (m.list l).head ≠ 0 := hhead ▸ h.forward.ne_null y hmem
      rw [Memory.prev, hnode, if_neg (hne y hmem), if_pos ⟨hz, hhead.symm⟩]
    · rw [List.getLast?_reverse] at hlast
      have hmem := List.mem_reverse.mp hy
      have hnot : ¬((m.list l).head ≠ 0 ∧ y = (m.list l).head) := by
        rintro ⟨_, heq⟩
        rw [h.head_eq] at heq
        cases ns with
        | nil => cases hmem
        | cons a ns => exact hlast (by rw [heq]; rfl)
      rw [Memory.prev, hnode, if_neg (hne y hmem), if_neg hnot]
      rfl
  · rw [listPushFront_list, if_pos rfl, h.length]
    simp

theorem Linked.next_eq (h : Linked m l (pre ++ n :: post)) :
    (m.node n).next = post.head?.getD 0 :=
  h.forward.after.2.eq_head

theorem reverse_middle (pre post : List ℕ) (n : ℕ) :
    (pre ++ n :: post).reverse = post.reverse ++ n :: pre.reverse := by simp

theorem Linked.prev_eq (h : Linked m l (pre ++ n :: post)) :
    (m.node n).prev = pre.getLast?.getD 0 := by
  have hm := h.mirror
  rw [reverse_middle] at hm
  rw [← List.head?_reverse]
  exact hm.next_eq

theorem Linked.head_eq_iff (h : Linked m l (pre ++ n :: post)) :
    n = (m.list l).head ↔ pre = [] := by
  have hnodup := h.forward.nodup
  rw [h.head_eq]
  cases pre with
  | nil => simp
  | cons a pre =>
    have hne : n ≠ a := by
      rintro rfl
      simp at hnodup
    simp [hne]

/-- The forward half of a deletion; the backward half is its mirror image. -/
theorem Linked.delete_forward (h : Linked m l (pre ++ n :: post)) :
    Chain 0 (listDelete m l n).next ((listDelete m l n).list l).head (pre ++ post) := by
  have hhead : ((listDelete m l n).list l).head =
      if pre = [] then m.next n else (m.list l).head := by
    rw [listDelete_list, if_pos rfl]
    exact if_congr h.head_eq_iff rfl rfl
  rw [hhead]
  refine h.forward.remove (fun y hy => ?_) (fun y _ hlast => ?_)
  · have hprev : (m.node n).prev = y := by rw [h.prev_eq, hy, Option.getD_some]
    have hne := h.forward.ne_null y (by simp [List.mem_of_getLast? hy])
    rw [Memory.next, listDelete_node]
    exact if_pos ⟨hprev ▸ hne, hprev.symm⟩
  · rw [Memory.next, listDelete_node]
    refine if_neg ?_
    rintro ⟨hz, heq⟩
    rw [h.prev_eq] at hz heq
    cases hp : pre.getLast? with
    | none => simp [hp] at hz
    | some x => exact hlast (by rw [hp, heq, hp]; rfl)

theorem Linked.delete (h : Linked m l (pre ++ n :: post)) :
    Linked (listDelete m l n) l (pre ++ post) := by
  refine ⟨h.delete_forward, ?_, ?_⟩
  · have hm := h.mirror
    rw [reverse_middle] at hm
    have hback := hm.delete_forward
    rw [← mirror_listDelete, ← List.reverse_append] at hback
    exact hback
  · rw [listDelete_list, if_pos rfl, h.length]
    simp only [List.length_append, List.length_cons]
    push_cast
    ring

theorem Linked.delete_node (h : Linked m l (pre ++ n :: post)) {x : ℕ} (hx : x ∉ pre ++ post) :
    (listDelete m l n).node x = m.node x := by
  rw [listDelete_node, if_neg, if_neg]
  · rintro ⟨hz, rfl⟩
    rw [h.prev_eq] at hz hx
    cases hp : pre.getLast? with
    | none => simp [hp] at hz
    | some y => exact hx (by simp [hp, List.mem_of_getLast? hp])
  · rintro ⟨hz, rfl⟩
    rw [h.next_eq] at hz hx
    cases hp : post.head? with
    | none => simp [hp] at hz
    | some y => exact hx (by simp [hp, List.mem_of_head? hp])

structure Entry where
  node : ℕ
  value : ℕ

def nodes (q : List Entry) : List ℕ := q.map Entry.node

abbrev Deques := ℕ → Option (List Entry)

structure Represents (m : Memory) (d : Deques) : Prop where
  linked : ∀ l q, d l = some q → Linked m l (nodes q)
  values : ∀ l q, d l = some q → ∀ e ∈ q, (m.node e.node).value = e.value
  apart : ∀ l k q r, d l = some q → d k = some r → l ≠ k → ∀ x ∈ nodes q, x ∉ nodes r

/-- What `kmalloc` returns: an address that no list uses. -/
def Fresh (d : Deques) (n : ℕ) : Prop := n ≠ 0 ∧ ∀ l q, d l = some q → n ∉ nodes q

variable {d : Deques} {q q' : List Entry}

theorem Fresh.update (h : Fresh d n) (hq : n ∉ nodes q) :
    Fresh (Function.update d l (some q)) n := by
  refine ⟨h.1, fun j r hr => ?_⟩
  by_cases hj : j = l
  · subst hj
    rw [Function.update_self] at hr
    exact Option.some.inj hr ▸ hq
  · rw [Function.update_of_ne hj] at hr
    exact h.2 j r hr

theorem fresh_empty (hn : n ≠ 0) : Fresh (fun _ => none) n := ⟨hn, fun _ _ h => nomatch h⟩

theorem Represents.empty (m : Memory) : Represents m fun _ => none where
  linked _ _ h := by cases h
  values _ _ h := by cases h
  apart _ _ _ _ h := by cases h

theorem Represents.update (h : Represents m d) (hq : (d l).getD [] = q)
    (hlinked : Linked m' l (nodes q')) (hvalues : ∀ e ∈ q', (m'.node e.node).value = e.value)
    (hlist : ∀ k ≠ l, m'.list k = m.list k)
    (hnode : ∀ x, x ∉ nodes q → x ∉ nodes q' → m'.node x = m.node x)
    (hnodes : ∀ x ∈ nodes q', x ∈ nodes q ∨ Fresh d x) :
    Represents m' (Function.update d l (some q')) := by
  have hother : ∀ k ≠ l, ∀ r, d k = some r → ∀ x ∈ nodes r, x ∉ nodes q ∧ x ∉ nodes q' := by
    intro k hk r hr x hx
    have hxq : x ∉ nodes q := by
      cases hdl : d l with
      | none =>
        rw [hdl] at hq
        rw [← hq]
        exact List.not_mem_nil
      | some q₀ =>
        rw [hdl] at hq
        rw [← hq]
        exact h.apart k l r q₀ hr hdl hk x hx
    refine ⟨hxq, fun hx' => ?_⟩
    rcases hnodes x hx' with hmem | hfresh
    · exact hxq hmem
    · exact hfresh.2 k r hr hx
  refine ⟨fun k r hr => ?_, fun k r hr e he => ?_, fun k j r t hr ht hkj x hx => ?_⟩
  · by_cases hk : k = l
    · subst hk
      rw [Function.update_self] at hr
      exact Option.some.inj hr ▸ hlinked
    · rw [Function.update_of_ne hk] at hr
      refine (h.linked k r hr).frame (hlist k hk) fun x hx => ?_
      exact hnode x (hother k hk r hr x hx).1 (hother k hk r hr x hx).2
  · by_cases hk : k = l
    · subst hk
      rw [Function.update_self] at hr
      obtain rfl := Option.some.inj hr
      exact hvalues e he
    · rw [Function.update_of_ne hk] at hr
      have hmem : e.node ∈ nodes r := List.mem_map_of_mem he
      rw [hnode _ (hother k hk r hr _ hmem).1 (hother k hk r hr _ hmem).2]
      exact h.values k r hr e he
  · by_cases hk : k = l
    · subst hk
      rw [Function.update_self] at hr
      rw [Function.update_of_ne hkj.symm] at ht
      obtain rfl := Option.some.inj hr
      exact fun hxt => (hother j hkj.symm t ht x hxt).2 hx
    · rw [Function.update_of_ne hk] at hr
      by_cases hj : j = l
      · subst hj
        rw [Function.update_self] at ht
        obtain rfl := Option.some.inj ht
        exact (hother k hk r hr x hx).2
      · rw [Function.update_of_ne hj] at ht
        exact h.apart k j r t hr ht hkj x hx

theorem Represents.reuse (h : Represents m d)
    (hsame : ∀ l q, d l = some q → m'.list l = m.list l ∧ ∀ x ∈ nodes q, m'.node x = m.node x) :
    Represents m' d := by
  refine ⟨fun l q hq => ?_, fun l q hq e he => ?_, h.apart⟩
  · exact (h.linked l q hq).frame (hsame l q hq).1 (hsame l q hq).2
  · rw [(hsame l q hq).2 _ (List.mem_map_of_mem he)]
    exact h.values l q hq e he

theorem Represents.listCreate (h : Represents m d) (hl : d l = none) :
    Represents (listCreate m l) (Function.update d l (some [])) := by
  have hlist : ∀ k, (NodeLists.listCreate m l).list k = if k = l then ⟨0, 0, 0⟩ else m.list k :=
    fun k => setList_list m l k _
  refine h.update (q := []) (by rw [hl]; rfl) ⟨?_, ?_, ?_⟩ (by simp) (fun k hk => ?_)
    (fun _ _ _ => rfl) (by simp [nodes])
  · rw [hlist, if_pos rfl]
    rfl
  · rw [hlist, if_pos rfl]
    rfl
  · rw [hlist, if_pos rfl]
    rfl
  · rw [hlist, if_neg hk]

theorem Represents.listPushFront (h : Represents m d) (hq : d l = some q) (hn : Fresh d n)
    (value : ℕ) :
    Represents (listPushFront m l n value) (Function.update d l (some (⟨n, value⟩ :: q))) := by
  have hl := h.linked l q hq
  have hnq := hn.2 l q hq
  have hvalue := pushFront_value hl.forward hn.1 hnq value
  refine h.update (by rw [hq, Option.getD_some]) (hl.pushFront hn.1 hnq value) (fun e he => ?_)
    (fun k hk => ?_) (fun x hx hx' => ?_) (fun x hx => ?_)
  · rcases List.mem_cons.mp he with rfl | he
    · rw [hvalue, if_pos rfl]
    · have hne : e.node ≠ n := fun heq => hnq (heq ▸ List.mem_map_of_mem he)
      rw [hvalue, if_neg hne, h.values l q hq e he]
  · rw [listPushFront_list, if_neg hk]
  · exact pushFront_node hl.forward hn.1 hnq value (fun heq => hx' (by simp [nodes, heq])) hx
  · rcases List.mem_cons.mp hx with rfl | hx
    · exact Or.inr hn
    · exact Or.inl hx

def Deques.mirror (d : Deques) : Deques := fun l => (d l).map List.reverse

theorem Deques.mirror_update (d : Deques) (l : ℕ) (q : List Entry) :
    Deques.mirror (Function.update d l (some q)) =
      Function.update (Deques.mirror d) l (some q.reverse) := by
  funext k
  by_cases hk : k = l
  · subst hk
    simp [Deques.mirror]
  · simp [Deques.mirror, hk]

@[simp] theorem Deques.mirror_mirror (d : Deques) : Deques.mirror (Deques.mirror d) = d := by
  funext l
  simp only [Deques.mirror, Option.map_map]
  cases d l <;> simp

theorem nodes_reverse (q : List Entry) : nodes q.reverse = (nodes q).reverse := List.map_reverse

theorem Represents.mirror (h : Represents m d) : Represents m.mirror (Deques.mirror d) := by
  refine ⟨fun l q hq => ?_, fun l q hq e he => ?_, fun l k q r hq hr hlk x hx => ?_⟩
  all_goals obtain ⟨q₀, hq₀, rfl⟩ := Option.map_eq_some_iff.mp hq
  · rw [nodes_reverse]
    exact (h.linked l q₀ hq₀).mirror
  · exact h.values l q₀ hq₀ e (List.mem_reverse.mp he)
  · obtain ⟨r₀, hr₀, rfl⟩ := Option.map_eq_some_iff.mp hr
    rw [nodes_reverse, List.mem_reverse] at hx ⊢
    exact h.apart l k q₀ r₀ hq₀ hr₀ hlk x hx

theorem Fresh.mirror (h : Fresh d n) : Fresh (Deques.mirror d) n := by
  refine ⟨h.1, fun l q hq hmem => ?_⟩
  obtain ⟨q₀, hq₀, rfl⟩ := Option.map_eq_some_iff.mp hq
  rw [nodes_reverse, List.mem_reverse] at hmem
  exact h.2 l q₀ hq₀ hmem

theorem Represents.listPushBack (h : Represents m d) (hq : d l = some q) (hn : Fresh d n)
    (value : ℕ) :
    Represents (listPushBack m l n value) (Function.update d l (some (q ++ [⟨n, value⟩]))) := by
  have hq' : Deques.mirror d l = some q.reverse := by rw [Deques.mirror, hq, Option.map_some]
  have hm := (h.mirror.listPushFront hq' hn.mirror value).mirror
  rw [mirror_listPushFront, Deques.mirror_update, Deques.mirror_mirror, List.reverse_cons,
    List.reverse_reverse] at hm
  exact hm

theorem nodes_middle (pre post : List Entry) (e : Entry) :
    nodes (pre ++ e :: post) = nodes pre ++ e.node :: nodes post := by simp [nodes]

theorem Represents.listDelete (h : Represents m d) (pre post : List Entry) {e : Entry}
    (hq : d l = some (pre ++ e :: post)) :
    Represents (listDelete m l e.node) (Function.update d l (some (pre ++ post))) := by
  have hl := h.linked l _ hq
  rw [nodes_middle] at hl
  have hnodes : nodes (pre ++ post) = nodes pre ++ nodes post := by simp [nodes]
  have hsub : ∀ x ∈ nodes (pre ++ post), x ∈ nodes (pre ++ e :: post) := by
    intro x hx
    rw [hnodes, List.mem_append] at hx
    rw [nodes_middle, List.mem_append, List.mem_cons]
    tauto
  refine h.update (by rw [hq, Option.getD_some]) (by rw [hnodes]; exact hl.delete) (fun f hf => ?_)
    (fun k hk => ?_) (fun x _ hx => ?_) (fun x hx => Or.inl (hsub x hx))
  · rw [listDelete_node]
    refine h.values l _ hq f ?_
    rw [List.mem_append] at hf
    rw [List.mem_append, List.mem_cons]
    tauto
  · rw [listDelete_list, if_neg hk]
  · exact hl.delete_node (by rwa [hnodes] at hx)

inductive Call where
  | create (l : ℕ)
  | pushFront (l n value : ℕ)
  | pushBack (l n value : ℕ)
  | popFront (l : ℕ)
  | popBack (l : ℕ)
  | delete (l n : ℕ)

def Call.run (m : Memory) : Call → ℕ × Memory
  | .create l => (l, listCreate m l)
  | .pushFront l n value => (0, listPushFront m l n value)
  | .pushBack l n value => (0, listPushBack m l n value)
  | .popFront l => listPopFront m l
  | .popBack l => listPopBack m l
  | .delete l n => (0, listDelete m l n)

def Call.spec (d : Deques) : Call → ℕ × Deques
  | .create l => (l, Function.update d l (some []))
  | .pushFront l n value => (0, Function.update d l ((d l).map (⟨n, value⟩ :: ·)))
  | .pushBack l n value => (0, Function.update d l ((d l).map (· ++ [⟨n, value⟩])))
  | .popFront l =>
    ((((d l).bind List.head?).map Entry.node).getD 0, Function.update d l ((d l).map List.tail))
  | .popBack l =>
    ((((d l).bind List.getLast?).map Entry.node).getD 0,
      Function.update d l ((d l).map List.dropLast))
  | .delete l n => (0, Function.update d l ((d l).map (List.eraseP fun e => e.node = n)))

/-- Lists are created at unused addresses, nodes are fresh, and only members
are deleted. -/
def Call.Valid (d : Deques) : Call → Prop
  | .create l => d l = none
  | .pushFront l n _ => (d l).isSome ∧ Fresh d n
  | .pushBack l n _ => (d l).isSome ∧ Fresh d n
  | .popFront l => (d l).isSome
  | .popBack l => (d l).isSome
  | .delete l n => ∃ q, d l = some q ∧ n ∈ nodes q

theorem Represents.popFront (h : Represents m d) (hq : d l = some q) :
    (listPopFront m l).1 = (q.head?.map Entry.node).getD 0 ∧
      Represents (listPopFront m l).2 (Function.update d l (some q.tail)) := by
  have hhead := (h.linked l q hq).head_eq
  cases q with
  | nil =>
    have hz : (m.list l).head = 0 := hhead
    rw [listPopFront, if_pos hz, List.tail_nil, ← hq, Function.update_eq_self]
    exact ⟨rfl, h⟩
  | cons e q =>
    have hz : (m.list l).head = e.node := hhead
    have hne : (m.list l).head ≠ 0 := by
      rw [hz]
      exact (h.linked l _ hq).forward.ne_null e.node (by simp [nodes])
    rw [listPopFront, if_neg hne, hz]
    exact ⟨rfl, h.listDelete [] q hq⟩

theorem Represents.popBack (h : Represents m d) (hq : d l = some q) :
    (listPopBack m l).1 = (q.getLast?.map Entry.node).getD 0 ∧
      Represents (listPopBack m l).2 (Function.update d l (some q.dropLast)) := by
  have hq' : Deques.mirror d l = some q.reverse := by rw [Deques.mirror, hq, Option.map_some]
  have hm := h.mirror.popFront hq'
  have hpop : listPopFront m.mirror l = ((listPopBack m l).1, (listPopBack m l).2.mirror) := by
    unfold listPopFront listPopBack
    change (if (m.list l).tail = 0 then _ else _) = _
    split_ifs
    · rfl
    · rw [mirror_listDelete]
      rfl
  rw [hpop, List.head?_reverse, List.tail_reverse] at hm
  refine ⟨hm.1, ?_⟩
  have hback := hm.2.mirror
  rw [Deques.mirror_update, Deques.mirror_mirror, List.reverse_reverse] at hback
  exact hback

theorem Represents.call {c : Call} (h : Represents m d) (hc : c.Valid d) :
    (c.run m).1 = (c.spec d).1 ∧ Represents (c.run m).2 (c.spec d).2 := by
  cases c with
  | create l => exact ⟨rfl, h.listCreate hc⟩
  | pushFront l n value =>
    obtain ⟨q, hq⟩ := Option.isSome_iff_exists.mp hc.1
    simp only [Call.run, Call.spec, hq, Option.map_some]
    exact ⟨trivial, h.listPushFront hq hc.2 value⟩
  | pushBack l n value =>
    obtain ⟨q, hq⟩ := Option.isSome_iff_exists.mp hc.1
    simp only [Call.run, Call.spec, hq, Option.map_some]
    exact ⟨trivial, h.listPushBack hq hc.2 value⟩
  | popFront l =>
    obtain ⟨q, hq⟩ := Option.isSome_iff_exists.mp hc
    simp only [Call.run, Call.spec, hq, Option.map_some, Option.bind_some]
    exact h.popFront hq
  | popBack l =>
    obtain ⟨q, hq⟩ := Option.isSome_iff_exists.mp hc
    simp only [Call.run, Call.spec, hq, Option.map_some, Option.bind_some]
    exact h.popBack hq
  | delete l n =>
    obtain ⟨q, hq, hn⟩ := hc
    obtain ⟨e, he, rfl⟩ := List.mem_map.mp hn
    obtain ⟨f, pre, post, _, hf, hsplit, herase⟩ :=
      List.exists_of_eraseP (p := fun f : Entry => f.node = e.node) he (by simp)
    have hnode : f.node = e.node := by simpa using hf
    simp only [Call.run, Call.spec, hq, Option.map_some, herase]
    rw [hsplit] at hq
    exact ⟨trivial, hnode ▸ h.listDelete pre post hq⟩

/-! `list_insert_after`. Behind NULL it is a push to the front; behind a member it sets neither the
`prev` of the node after it nor the tail, so that the way back does not meet the new node. -/
section Insertion

theorem listInsertAfter_backward {prev : ℕ} (h : Linked m l ns) (hprev : prev ≠ 0) (hne : n ≠ prev)
    (hn : n ∉ ns) (value : ℕ) :
    Chain 0 (listInsertAfter m l prev n value).prev
      ((listInsertAfter m l prev n value).list l).tail ns.reverse := by
  rw [listInsertAfter_list m l l n value hprev, if_pos rfl]
  apply h.backward.congr
  intro x hx
  have hxn : x ≠ n := by
    rintro rfl
    exact hn (List.mem_reverse.mp hx)
  rw [Memory.prev, Memory.prev, listInsertAfter_node m l n x value hprev hne, if_neg hxn]
  split_ifs <;> rfl

/-- The sequence has the new value behind `prev`, and later calls see it that way. -/
def Inserted (m' : Memory) (d' : Deques) : Prop :=
  Represents m' d' ∧ ∀ c : Call, c.Valid d' →
    (c.run m').1 = (c.spec d').1 ∧ Represents (c.run m').2 (c.spec d').2

/-- `list_insert_after` keeps the invariant of the lists and inserts the value exactly if it is
called with NULL. -/
theorem listInsertAfter_iff (m : Memory) (d : Deques) (l n value : ℕ) (pre post : List Entry)
    (h : Represents m d) (hq : d l = some (pre ++ post)) (hn : Fresh d n) :
    Inserted (listInsertAfter m l ((nodes pre).getLast?.getD 0) n value)
        (Function.update d l (some (pre ++ ⟨n, value⟩ :: post))) ↔
      (nodes pre).getLast?.getD 0 = 0 := by
  have hl := h.linked l _ hq
  have hnq := hn.2 l _ hq
  have hnodes : nodes (pre ++ post) = nodes pre ++ nodes post := List.map_append
  constructor
  · intro hins
    by_contra hprev
    obtain ⟨y, hy⟩ : ∃ y, (nodes pre).getLast? = some y := by
      cases hlast : (nodes pre).getLast? with
      | none => rw [hlast] at hprev; exact absurd rfl hprev
      | some y => exact ⟨y, rfl⟩
    have hne : n ≠ (nodes pre).getLast?.getD 0 := by
      rw [hy, Option.getD_some]
      rintro rfl
      rw [hnodes] at hnq
      exact hnq (List.mem_append_left _ (List.mem_of_getLast? hy))
    -- Backwards the list is still the old one, which is shorter.
    have hback := (hins.1.linked l _ (Function.update_self l _ d)).backward
    have hsame := hback.unique (listInsertAfter_backward hl hprev hne hnq value)
    have hlength := congrArg List.length hsame
    simp only [List.length_reverse, nodes, List.length_map, List.length_append,
      List.length_cons] at hlength
    omega
  · intro hprev
    have hpre : pre = [] := by
      cases hlast : (nodes pre).getLast? with
      | none => exact List.map_eq_nil_iff.mp (List.getLast?_eq_none_iff.mp hlast)
      | some y =>
        rw [hlast, Option.getD_some] at hprev
        have hmem : y ∈ nodes (pre ++ post) := by
          rw [hnodes]
          exact List.mem_append_left _ (List.mem_of_getLast? hlast)
        exact absurd hprev (hl.forward.ne_null y hmem)
    subst hpre
    have hrep : Represents (listInsertAfter m l 0 n value)
        (Function.update d l (some (⟨n, value⟩ :: post))) := by
      rw [listInsertAfter, if_pos rfl]
      exact h.listPushFront hq hn value
    exact ⟨hrep, fun c hc => hrep.call hc⟩

def blankMemory : Memory := ⟨fun _ => ⟨0, 0, 0⟩, fun _ => ⟨0, 0, 0⟩⟩

def oneNode : Memory := listPushBack (listCreate blankMemory 1) 1 2 5

def oneDeque : Deques := Function.update (Function.update (fun _ => none) 1 (some [])) 1 (some [⟨2, 5⟩])

theorem represents_oneNode : Represents oneNode oneDeque := by
  have hempty : Represents (listCreate blankMemory 1) (Function.update (fun _ => none) 1 (some [])) :=
    (Represents.empty blankMemory).listCreate rfl
  have hfresh : Fresh (Function.update (fun _ => none) 1 (some [])) 2 :=
    (fresh_empty (by decide)).update List.not_mem_nil
  exact hempty.listPushBack (Function.update_self ..) hfresh 5

theorem fresh_oneDeque : Fresh oneDeque 3 :=
  ((fresh_empty (by decide)).update List.not_mem_nil).update (by decide)

theorem listInsertAfter_null :
    Represents oneNode oneDeque ∧ oneDeque 1 = some [⟨2, 5⟩] ∧ Fresh oneDeque 3 ∧
      Inserted (listInsertAfter oneNode 1 0 3 6)
        (Function.update oneDeque 1 (some [⟨3, 6⟩, ⟨2, 5⟩])) :=
  ⟨represents_oneNode, rfl, fresh_oneDeque,
    (listInsertAfter_iff oneNode oneDeque 1 3 6 [] [⟨2, 5⟩] represents_oneNode rfl
      fresh_oneDeque).mpr rfl⟩

/-- Behind the last node the new one is not the tail: the next pop from the back still takes the
old last node. -/
theorem insert_behind_last_lost :
    Represents oneNode oneDeque ∧ oneDeque 1 = some [⟨2, 5⟩] ∧ Fresh oneDeque 3 ∧
      (listPopBack (listInsertAfter oneNode 1 2 3 6) 1).1 = 2 ∧
      ¬ Inserted (listInsertAfter oneNode 1 2 3 6)
        (Function.update oneDeque 1 (some [⟨2, 5⟩, ⟨3, 6⟩])) := by
  have hpop : (listPopBack (listInsertAfter oneNode 1 2 3 6) 1).1 = 2 := by decide +kernel
  refine ⟨represents_oneNode, rfl, fresh_oneDeque, hpop, fun hins => ?_⟩
  have hlast := (hins.1.popBack (Function.update_self ..)).1
  rw [hpop] at hlast
  cases hlast

end Insertion

end Bingos.NodeLists
