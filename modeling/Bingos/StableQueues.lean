import Mathlib

set_option autoImplicit false

/-! Queues kept in the order of a key, with equal keys in the order of their
arrival: a new element goes behind every element whose key is not greater. -/
namespace Bingos.StableQueues

variable {α κ : Type} [LinearOrder κ] {key : α → κ} {l : List α}

def Sorted (key : α → κ) (l : List α) : Prop := l.Pairwise fun x y => key x ≤ key y

def upTo (key : α → κ) (k : κ) (l : List α) : List α := l.takeWhile fun y => key y ≤ k

def beyond (key : α → κ) (k : κ) (l : List α) : List α := l.dropWhile fun y => key y ≤ k

def insert (key : α → κ) (x : α) (l : List α) : List α :=
  upTo key (key x) l ++ x :: beyond key (key x) l

@[simp] theorem upTo_append_beyond (key : α → κ) (k : κ) (l : List α) :
    upTo key k l ++ beyond key k l = l :=
  List.takeWhile_append_dropWhile

theorem upTo_congr {key' : α → κ} (k : κ) (h : ∀ y ∈ l, key' y = key y) :
    upTo key' k l = upTo key k l := by
  induction l with
  | nil => rfl
  | cons y l ih =>
    have ht := ih fun z hz => h z (by simp [hz])
    simp only [upTo, List.takeWhile_cons, h y (by simp)] at ht ⊢
    rw [ht]

theorem beyond_congr {key' : α → κ} (k : κ) (h : ∀ y ∈ l, key' y = key y) :
    beyond key' k l = beyond key k l := by
  have hl := upTo_append_beyond key' k l
  rw [upTo_congr k h] at hl
  exact List.append_cancel_left (hl.trans (upTo_append_beyond key k l).symm)

theorem Sorted.congr {key' : α → κ} (hs : Sorted key l) (h : ∀ y ∈ l, key' y = key y) :
    Sorted key' l :=
  List.Pairwise.imp_of_mem (fun hx hy hle => by rwa [h _ hx, h _ hy]) hs

theorem Sorted.sublist {l' : List α} (hs : Sorted key l) (h : l'.Sublist l) : Sorted key l' :=
  List.Pairwise.sublist h hs

theorem le_of_mem_upTo {k : κ} {y : α} (h : y ∈ upTo key k l) : key y ≤ k := by
  simpa using List.mem_takeWhile_imp h

theorem lt_of_mem_beyond (hs : Sorted key l) {k : κ} {y : α} (h : y ∈ beyond key k l) :
    k < key y := by
  induction l with
  | nil => cases h
  | cons x l ih =>
    obtain ⟨hx, hs⟩ := List.pairwise_cons.mp hs
    simp only [beyond, List.dropWhile_cons] at h ih
    by_cases hk : key x ≤ k
    · rw [if_pos (by simpa using hk)] at h
      exact ih hs h
    · rw [if_neg (by simpa using hk)] at h
      rcases List.mem_cons.mp h with rfl | hy
      · exact not_le.mp hk
      · exact (not_le.mp hk).trans_le (hx y hy)

theorem upTo_eq_filter (hs : Sorted key l) (k : κ) :
    upTo key k l = l.filter fun y => key y ≤ k := by
  conv_rhs => rw [← upTo_append_beyond key k l]
  have hfront : (upTo key k l).filter (fun y => key y ≤ k) = upTo key k l :=
    List.filter_eq_self.mpr fun y hy => by simpa using le_of_mem_upTo hy
  have hback : (beyond key k l).filter (fun y => key y ≤ k) = [] :=
    List.filter_eq_nil_iff.mpr fun y hy => by simpa using lt_of_mem_beyond hs hy
  rw [List.filter_append, hfront, hback, List.append_nil]

theorem beyond_eq_filter (hs : Sorted key l) (k : κ) :
    beyond key k l = l.filter fun y => k < key y := by
  conv_rhs => rw [← upTo_append_beyond key k l]
  have hfront : (upTo key k l).filter (fun y => k < key y) = [] :=
    List.filter_eq_nil_iff.mpr fun y hy => by simpa using le_of_mem_upTo hy
  have hback : (beyond key k l).filter (fun y => k < key y) = beyond key k l :=
    List.filter_eq_self.mpr fun y hy => by simpa using lt_of_mem_beyond hs hy
  rw [List.filter_append, hfront, hback, List.nil_append]

theorem mem_upTo_iff (hs : Sorted key l) {k : κ} {y : α} :
    y ∈ upTo key k l ↔ y ∈ l ∧ key y ≤ k := by
  rw [upTo_eq_filter hs]
  simp

theorem mem_beyond_iff (hs : Sorted key l) {k : κ} {y : α} :
    y ∈ beyond key k l ↔ y ∈ l ∧ k < key y := by
  rw [beyond_eq_filter hs]
  simp

theorem insert_perm (x : α) : (insert key x l).Perm (x :: l) := by
  have h : (insert key x l).Perm (x :: (upTo key (key x) l ++ beyond key (key x) l)) :=
    List.perm_middle
  rwa [upTo_append_beyond] at h

theorem Sorted.insert (hs : Sorted key l) (x : α) : Sorted key (insert key x l) := by
  have hl : Sorted key (upTo key (key x) l ++ beyond key (key x) l) := by
    rwa [upTo_append_beyond]
  obtain ⟨hfront, hback, hcross⟩ := List.pairwise_append.mp hl
  refine List.pairwise_append.mpr ⟨hfront, List.pairwise_cons.mpr ⟨fun y hy => ?_, hback⟩, ?_⟩
  · exact (lt_of_mem_beyond hs hy).le
  · intro y hy z hz
    rcases List.mem_cons.mp hz with rfl | hz
    · exact le_of_mem_upTo hy
    · exact hcross y hy z hz

theorem filter_insert (hs : Sorted key l) (x : α) (k : κ) :
    (insert key x l).filter (fun y => key y = k) =
      l.filter (fun y => key y = k) ++ [x].filter fun y => key y = k := by
  conv_rhs => rw [← upTo_append_beyond key (key x) l]
  by_cases hk : key x = k
  · have hback : (beyond key (key x) l).filter (fun y => key y = k) = [] :=
      List.filter_eq_nil_iff.mpr fun y hy => by
        simpa using ((hk ▸ lt_of_mem_beyond hs hy : k < key y)).ne'
    simp only [StableQueues.insert, List.filter_append, List.filter_cons, List.filter_nil, hback,
      List.append_nil]
  · simp only [StableQueues.insert, List.filter_append, List.filter_cons, List.filter_nil, hk,
      decide_false, Bool.false_eq_true, if_false, List.append_nil]

end Bingos.StableQueues
