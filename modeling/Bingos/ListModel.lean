import Mathlib
import Bingos.PointerChains

set_option autoImplicit false

/-! The lists of `list.c`. A node or list is a record at its address; records
are separate heap blocks. Address 0 is NULL, and `kmalloc` is the address it
returns. -/
namespace Bingos.NodeLists

@[ext] structure Node where
  prev : ℕ
  next : ℕ
  value : ℕ

@[ext] structure ListT where
  head : ℕ
  tail : ℕ
  length : ℤ

@[ext] structure Memory where
  node : ℕ → Node
  list : ℕ → ListT

namespace Memory

def setNode (m : Memory) (a : ℕ) (n : Node) : Memory := { m with node := Function.update m.node a n }

def setNext (m : Memory) (a v : ℕ) : Memory := m.setNode a { m.node a with next := v }

def setPrev (m : Memory) (a v : ℕ) : Memory := m.setNode a { m.node a with prev := v }

def setList (m : Memory) (l : ℕ) (h : ListT) : Memory := { m with list := Function.update m.list l h }

def setHead (m : Memory) (l v : ℕ) : Memory := m.setList l { m.list l with head := v }

def setTail (m : Memory) (l v : ℕ) : Memory := m.setList l { m.list l with tail := v }

def addLength (m : Memory) (l : ℕ) (k : ℤ) : Memory :=
  m.setList l { m.list l with length := (m.list l).length + k }

end Memory

def listCreate (m : Memory) (l : ℕ) : Memory := m.setList l ⟨0, 0, 0⟩

/-- The steps of `list_delete`: the ends of the list, and the neighbours of the node. -/
def dropHead (m : Memory) (l n : ℕ) : Memory :=
  if n = (m.list l).head then m.setHead l (m.node n).next else m

def dropTail (m : Memory) (l n : ℕ) : Memory :=
  if n = (m.list l).tail then m.setTail l (m.node n).prev else m

def bridgeNext (m : Memory) (n : ℕ) : Memory :=
  if (m.node n).prev ≠ 0 then m.setNext (m.node n).prev (m.node n).next else m

def bridgePrev (m : Memory) (n : ℕ) : Memory :=
  if (m.node n).next ≠ 0 then m.setPrev (m.node n).next (m.node n).prev else m

def listDelete (m : Memory) (l n : ℕ) : Memory :=
  (bridgePrev (bridgeNext (dropTail (dropHead m l n) l n) n) n).addLength l (-1)

def attachBack (m : Memory) (l n : ℕ) : Memory :=
  if (m.list l).tail = 0 then m.setHead l n
  else (m.setNext (m.list l).tail n).setPrev n (m.list l).tail

def listPushBack (m : Memory) (l n value : ℕ) : Memory :=
  ((attachBack (m.setNode n ⟨0, 0, value⟩) l n).setTail l n).addLength l 1

def attachFront (m : Memory) (l n : ℕ) : Memory :=
  if (m.list l).head = 0 then m.setTail l n
  else (m.setPrev (m.list l).head n).setNext n (m.list l).head

def listPushFront (m : Memory) (l n value : ℕ) : Memory :=
  ((attachFront (m.setNode n ⟨0, 0, value⟩) l n).setHead l n).addLength l 1

/-- The node taken off, or NULL. -/
def listPopFront (m : Memory) (l : ℕ) : ℕ × Memory :=
  if (m.list l).head = 0 then (0, m) else ((m.list l).head, listDelete m l (m.list l).head)

def listPopBack (m : Memory) (l : ℕ) : ℕ × Memory :=
  if (m.list l).tail = 0 then (0, m) else ((m.list l).tail, listDelete m l (m.list l).tail)

def listInsertAfter (m : Memory) (l prev n value : ℕ) : Memory :=
  if prev = 0 then listPushFront m l n value
  else
    let m := m.setNode n ⟨0, 0, value⟩
    let m := m.setNext n (m.node prev).next
    let m := m.setPrev n prev
    let m := m.setNext prev n
    m.addLength l 1

section Fields
variable (m : Memory) (a b v l k : ℕ) (n : Node)

@[simp] theorem setNode_list : (m.setNode a n).list = m.list := rfl

@[simp] theorem setNext_list : (m.setNext a v).list = m.list := rfl

@[simp] theorem setPrev_list : (m.setPrev a v).list = m.list := rfl

@[simp] theorem setList_node (h : ListT) : (m.setList l h).node = m.node := rfl

@[simp] theorem setHead_node : (m.setHead l v).node = m.node := rfl

@[simp] theorem setTail_node : (m.setTail l v).node = m.node := rfl

@[simp] theorem addLength_node (i : ℤ) : (m.addLength l i).node = m.node := rfl

theorem setNode_node : (m.setNode a n).node b = if b = a then n else m.node b := by
  simp only [Memory.setNode, Function.update_apply]

theorem setNext_node :
    (m.setNext a v).node b = if b = a then { m.node a with next := v } else m.node b :=
  setNode_node m a b _

theorem setPrev_node :
    (m.setPrev a v).node b = if b = a then { m.node a with prev := v } else m.node b :=
  setNode_node m a b _

theorem setList_list (h : ListT) : (m.setList l h).list k = if k = l then h else m.list k := by
  simp only [Memory.setList, Function.update_apply]

theorem setHead_list :
    (m.setHead l v).list k = if k = l then { m.list l with head := v } else m.list k :=
  setList_list m l k _

theorem setTail_list :
    (m.setTail l v).list k = if k = l then { m.list l with tail := v } else m.list k :=
  setList_list m l k _

theorem addLength_list (i : ℤ) : (m.addLength l i).list k =
    if k = l then { m.list l with length := (m.list l).length + i } else m.list k :=
  setList_list m l k _

end Fields

section Specs
variable (m : Memory) (l k n b value : ℕ)

@[simp] theorem dropHead_node : (dropHead m l n).node = m.node := by
  unfold dropHead
  split_ifs <;> rfl

@[simp] theorem dropTail_node : (dropTail m l n).node = m.node := by
  unfold dropTail
  split_ifs <;> rfl

@[simp] theorem bridgeNext_list : (bridgeNext m n).list = m.list := by
  unfold bridgeNext
  split_ifs <;> rfl

@[simp] theorem bridgePrev_list : (bridgePrev m n).list = m.list := by
  unfold bridgePrev
  split_ifs <;> rfl

theorem dropHead_list : (dropHead m l n).list k =
    if k = l ∧ n = (m.list l).head then { m.list l with head := (m.node n).next }
    else m.list k := by
  unfold dropHead
  split_ifs <;> simp_all [setHead_list]

theorem dropTail_list : (dropTail m l n).list k =
    if k = l ∧ n = (m.list l).tail then { m.list l with tail := (m.node n).prev }
    else m.list k := by
  unfold dropTail
  split_ifs <;> simp_all [setTail_list]

theorem bridgeNext_node : (bridgeNext m n).node b =
    if (m.node n).prev ≠ 0 ∧ b = (m.node n).prev then { m.node b with next := (m.node n).next }
    else m.node b := by
  unfold bridgeNext
  split_ifs <;> simp_all [setNext_node]

theorem bridgePrev_node : (bridgePrev m n).node b =
    if (m.node n).next ≠ 0 ∧ b = (m.node n).next then { m.node b with prev := (m.node n).prev }
    else m.node b := by
  unfold bridgePrev
  split_ifs <;> simp_all [setPrev_node]

theorem listDelete_list : (listDelete m l n).list k =
    if k = l then
      ⟨if n = (m.list l).head then (m.node n).next else (m.list l).head,
        if n = (m.list l).tail then (m.node n).prev else (m.list l).tail, (m.list l).length - 1⟩
    else m.list k := by
  simp only [listDelete, addLength_list, bridgePrev_list, bridgeNext_list, dropTail_list,
    dropHead_list, dropHead_node, true_and]
  split_ifs <;> simp_all [sub_eq_add_neg]

theorem bridgeNext_self : ((bridgeNext m n).node n).prev = (m.node n).prev ∧
    ((bridgeNext m n).node n).next = (m.node n).next := by
  rw [bridgeNext_node]
  split_ifs <;> exact ⟨rfl, rfl⟩

theorem listDelete_node : (listDelete m l n).node b =
    ⟨if (m.node n).next ≠ 0 ∧ b = (m.node n).next then (m.node n).prev else (m.node b).prev,
      if (m.node n).prev ≠ 0 ∧ b = (m.node n).prev then (m.node n).next else (m.node b).next,
      (m.node b).value⟩ := by
  obtain ⟨hprev, hnext⟩ := bridgeNext_self (dropTail (dropHead m l n) l n) n
  rw [listDelete, addLength_node, bridgePrev_node, hprev, hnext, bridgeNext_node]
  simp only [dropTail_node, dropHead_node]
  by_cases h1 : (m.node n).next ≠ 0 ∧ b = (m.node n).next
  · by_cases h2 : (m.node n).prev ≠ 0 ∧ b = (m.node n).prev
    · simp only [if_pos h1, if_pos h2]
    · simp only [if_pos h1, if_neg h2]
  · by_cases h2 : (m.node n).prev ≠ 0 ∧ b = (m.node n).prev
    · simp only [if_neg h1, if_pos h2]
    · simp only [if_neg h1, if_neg h2]

theorem listPushFront_list : (listPushFront m l n value).list k =
    if k = l then
      ⟨n, if (m.list l).head = 0 then n else (m.list l).tail, (m.list l).length + 1⟩
    else m.list k := by
  unfold listPushFront attachFront
  simp only [addLength_list, setHead_list, setNode_list]
  split_ifs <;> simp_all [setTail_list]

theorem attachFront_node (h : n ≠ (m.list l).head) : (attachFront m l n).node b =
    if (m.list l).head = 0 then m.node b
    else if b = n then { m.node n with next := (m.list l).head }
    else if b = (m.list l).head then { m.node b with prev := n }
    else m.node b := by
  unfold attachFront
  by_cases hz : (m.list l).head = 0
  · rw [if_pos hz, if_pos hz, setTail_node]
  · rw [if_neg hz, if_neg hz, setNext_node, setPrev_node, if_neg h, setPrev_node]
    by_cases hb : b = (m.list l).head
    · simp only [hb]
    · simp only [if_neg hb]

theorem listPushFront_node {m : Memory} {l n : ℕ} (h : n ≠ (m.list l).head) (value b : ℕ) :
    (listPushFront m l n value).node b =
      if b = n then ⟨0, (m.list l).head, value⟩
      else if (m.list l).head ≠ 0 ∧ b = (m.list l).head then { m.node b with prev := n }
      else m.node b := by
  change (attachFront (m.setNode n ⟨0, 0, value⟩) l n).node b = _
  rw [attachFront_node (m.setNode n ⟨0, 0, value⟩) l n b h, setNode_node, setNode_node, if_pos rfl]
  change (if (m.list l).head = 0 then _ else _) = _
  by_cases hb : b = n
  · simp only [if_pos hb]
    split_ifs with hz
    · rw [hz]
    · rfl
  · simp only [if_neg hb]
    by_cases hz : (m.list l).head = 0
    · simp only [hz, ne_eq, not_true_eq_false, false_and, if_true, if_false]
    · simp only [hz, ne_eq, not_false_eq_true, true_and, if_false]
      rfl

theorem listInsertAfter_list {prev : ℕ} (h : prev ≠ 0) :
    (listInsertAfter m l prev n value).list k =
      if k = l then { m.list l with length := (m.list l).length + 1 } else m.list k := by
  unfold listInsertAfter
  simp only [if_neg h, addLength_list, setNext_list, setPrev_list, setNode_list]

theorem listInsertAfter_node {prev : ℕ} (h : prev ≠ 0) (hn : n ≠ prev) :
    (listInsertAfter m l prev n value).node b =
      if b = n then ⟨prev, (m.node prev).next, value⟩
      else if b = prev then { m.node b with next := n }
      else m.node b := by
  unfold listInsertAfter
  simp only [if_neg h, addLength_node, setNext_node, setPrev_node, setNode_node, if_neg hn.symm]
  by_cases hb : b = n
  · simp only [hb, if_neg hn, if_true]
  · by_cases hbp : b = prev
    · simp only [hbp, if_neg hn.symm, if_true]
    · simp only [if_neg hb, if_neg hbp]

end Specs

def Memory.mirror (m : Memory) : Memory where
  node a := ⟨(m.node a).next, (m.node a).prev, (m.node a).value⟩
  list l := ⟨(m.list l).tail, (m.list l).head, (m.list l).length⟩

section Mirror
variable (m : Memory) (l n value : ℕ)

theorem mirror_listDelete : (listDelete m l n).mirror = listDelete m.mirror l n := by
  ext a
  · simp only [Memory.mirror, listDelete_node]
  · simp only [Memory.mirror, listDelete_node]
  · simp only [Memory.mirror, listDelete_node]
  all_goals
    simp only [Memory.mirror, listDelete_list]
    split_ifs <;> rfl

theorem mirror_setNode (a : ℕ) (p : Node) :
    (m.setNode a p).mirror = m.mirror.setNode a ⟨p.next, p.prev, p.value⟩ := by
  ext b <;> simp only [Memory.mirror, setNode_node, setNode_list] <;> split_ifs <;> rfl

theorem mirror_setList (h : ListT) :
    (m.setList l h).mirror = m.mirror.setList l ⟨h.tail, h.head, h.length⟩ := by
  ext b <;> simp only [Memory.mirror, setList_list, setList_node] <;> split_ifs <;> rfl

theorem mirror_setPrev (a v : ℕ) : (m.setPrev a v).mirror = m.mirror.setNext a v :=
  mirror_setNode m a _

theorem mirror_setNext (a v : ℕ) : (m.setNext a v).mirror = m.mirror.setPrev a v :=
  mirror_setNode m a _

theorem mirror_setHead (v : ℕ) : (m.setHead l v).mirror = m.mirror.setTail l v :=
  mirror_setList m l _

theorem mirror_setTail (v : ℕ) : (m.setTail l v).mirror = m.mirror.setHead l v :=
  mirror_setList m l _

theorem mirror_addLength (i : ℤ) : (m.addLength l i).mirror = m.mirror.addLength l i :=
  mirror_setList m l _

theorem mirror_attachFront : (attachFront m l n).mirror = attachBack m.mirror l n := by
  unfold attachFront attachBack
  change _ = if (m.list l).head = 0 then _ else _
  split_ifs
  · exact mirror_setTail m l n
  · rw [mirror_setNext, mirror_setPrev]
    rfl

theorem mirror_listPushFront :
    (listPushFront m l n value).mirror = listPushBack m.mirror l n value := by
  rw [listPushFront, mirror_addLength, mirror_setHead, mirror_attachFront, mirror_setNode]
  rfl

end Mirror

end Bingos.NodeLists
