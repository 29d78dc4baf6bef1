import Mathlib

set_option autoImplicit false

/-! The maximal parts of a list without separators, and a list cut at its separators from left to
right. -/
namespace Bingos.MaximalRuns

structure Span where
  start : ℕ
  stop : ℕ
deriving DecidableEq, Repr

instance : LE Span := ⟨fun s t => t.start ≤ s.start ∧ s.stop ≤ t.stop⟩

section Lists
variable {α : Type*} {sep : α → Prop} {l : List α} {s : Span}

def Span.part (s : Span) (l : List α) : List α := (l.drop s.start).take (s.stop - s.start)

/-- A part of the list, not empty and without a separator. -/
structure Free (sep : α → Prop) (l : List α) (s : Span) : Prop where
  nonempty : s.start < s.stop
  inside : s.stop ≤ l.length
  free : ∀ c ∈ s.part l, ¬ sep c

structure Runs (sep : α → Prop) (l : List α) (ws : List Span) : Prop where
  mem_iff : ∀ s, s ∈ ws ↔ Maximal (Free sep l) s
  ordered : ws.Pairwise fun s t => s.stop < t.start

theorem Runs.apart {ws : List Span} (h : Runs sep l ws) {t : Span} (hs : s ∈ ws) (ht : t ∈ ws)
    (hne : s ≠ t) : s.stop < t.start ∨ t.stop < s.start := by
  have hpairs : ws.Pairwise fun s t => s.stop < t.start ∨ t.stop < s.start :=
    h.ordered.imp Or.inl
  have hsymm : Std.Symm fun s t : Span => s.stop < t.start ∨ t.stop < s.start :=
    ⟨fun _ _ hst => hst.symm⟩
  exact hpairs.forall hs ht hne

theorem Runs.unique {ws vs : List Span} (h : Runs sep l ws) (h' : Runs sep l vs) : ws = vs := by
  have hnonempty : ∀ s ∈ ws, s.start < s.stop := fun s hs => ((h.mem_iff s).mp hs).prop.nonempty
  have hmem : ∀ s, s ∈ ws ↔ s ∈ vs := fun s => (h.mem_iff s).trans (h'.mem_iff s).symm
  have hnodup : ∀ us : List Span, (∀ s ∈ us, s ∈ ws) →
      us.Pairwise (fun s t => s.stop < t.start) → us.Nodup := by
    intro us hus hordered
    refine hordered.imp_of_mem fun hs _ hlt heq => ?_
    have := hnonempty _ (hus _ hs)
    rw [← heq] at hlt
    omega
  have hperm : ws.Perm vs := (List.perm_ext_iff_of_nodup (hnodup ws (fun _ hs => hs) h.ordered)
    (hnodup vs (fun s hs => (hmem s).mpr hs) h'.ordered)).mpr hmem
  refine hperm.eq_of_pairwise (fun s t hs ht hst hts => ?_) h.ordered h'.ordered
  have hs' := hnonempty s hs
  have ht' := hnonempty t ((hmem t).mpr ht)
  omega

def Plain (sep : α → Prop) (l : List α) (i : ℕ) : Prop := ∃ c, l[i]? = some c ∧ ¬ sep c

theorem Plain.lt {i : ℕ} (h : Plain sep l i) : i < l.length := by
  obtain ⟨c, hc, _⟩ := h
  exact (List.getElem?_eq_some_iff.mp hc).1

theorem free_iff : Free sep l s ↔
    s.start < s.stop ∧ ∀ i, s.start ≤ i → i < s.stop → Plain sep l i := by
  have hpart : ∀ i, s.start ≤ i → i < s.stop → (s.part l)[i - s.start]? = l[i]? := by
    intro i hlow hhigh
    rw [Span.part, List.getElem?_take_of_lt (by omega), List.getElem?_drop]
    congr 1
    omega
  constructor
  · intro h
    refine ⟨h.nonempty, fun i hlow hhigh => ?_⟩
    have hlt : i < l.length := hhigh.trans_le h.inside
    have hget := hpart i hlow hhigh
    rw [List.getElem?_eq_getElem hlt] at hget
    exact ⟨l[i], List.getElem?_eq_getElem hlt, h.free _ (List.mem_of_getElem? hget)⟩
  · rintro ⟨hlt, hplain⟩
    have hlast := (hplain (s.stop - 1) (by omega) (by omega)).lt
    refine ⟨hlt, by omega, fun c hc => ?_⟩
    obtain ⟨j, hj⟩ := List.mem_iff_getElem?.mp hc
    have hjlt : j < (s.part l).length := (List.getElem?_eq_some_iff.mp hj).1
    rw [Span.part, List.length_take, List.length_drop] at hjlt
    have hget := hpart (s.start + j) (by omega) (by omega)
    rw [Nat.add_sub_cancel_left, hj] at hget
    obtain ⟨c', hc', hsep⟩ := hplain (s.start + j) (by omega) (by omega)
    rw [← hget] at hc'
    rwa [Option.some.inj hc']

end Lists

/-! The longest intervals of places with a property, from a place on. -/
section Intervals
variable {F : ℕ → Prop} {p : ℕ} {s : Span}

structure IsRun (F : ℕ → Prop) (p : ℕ) (s : Span) : Prop where
  from_le : p ≤ s.start
  nonempty : s.start < s.stop
  all : ∀ i, s.start ≤ i → i < s.stop → F i
  left : ∀ i, p ≤ i → i + 1 = s.start → ¬ F i
  right : ¬ F s.stop

theorem not_isRun (h : ∀ i, p ≤ i → ¬ F i) : ¬ IsRun F p s := fun hrun =>
  h s.start hrun.from_le (hrun.all s.start le_rfl hrun.nonempty)

theorem isRun_iff {a b : ℕ} (hgap : ∀ i, p ≤ i → i < a → ¬ F i) (hpa : p ≤ a) (hab : a < b)
    (hword : ∀ i, a ≤ i → i < b → F i) (hb : ¬ F b) :
    IsRun F p s ↔ s = ⟨a, b⟩ ∨ IsRun F (b + 1) s := by
  constructor
  · intro h
    have hstart : F s.start := h.all s.start le_rfl h.nonempty
    have ha : a ≤ s.start := not_lt.mp fun hlt => hgap s.start h.from_le hlt hstart
    rcases lt_trichotomy s.start b with hlt | heq | hgt
    · left
      have heq : s.start = a := by
        by_contra hne
        exact h.left (s.start - 1) (by omega) (by omega) (hword (s.start - 1) (by omega) (by omega))
      have hstop : s.stop = b := by
        rcases lt_trichotomy s.stop b with hlt' | heq' | hgt'
        · exact absurd (hword s.stop (by have := h.nonempty; omega) hlt') h.right
        · exact heq'
        · exact absurd (h.all b (by omega) hgt') hb
      cases s
      cases heq
      cases hstop
      rfl
    · exact absurd (heq ▸ hstart) hb
    · exact Or.inr ⟨hgt, h.nonempty, h.all, fun i hi => h.left i (by omega), h.right⟩
  · rintro (rfl | h)
    · refine ⟨hpa, hab, hword, fun i hi hia => ?_, hb⟩
      have hia : i + 1 = a := hia
      exact hgap i hi (by omega)
    · have hlow := h.from_le
      refine ⟨by omega, h.nonempty, h.all, fun i _ his => ?_, h.right⟩
      rcases Nat.lt_or_ge i (b + 1) with hlt | hge
      · have heq : i = b := by omega
        exact heq ▸ hb
      · exact h.left i hge his

end Intervals

section Splits
variable {α : Type*} {sep : α → Prop} {l : List α} {ws : List Span} {p : ℕ}

theorem isRun_iff_maximal (s : Span) : IsRun (Plain sep l) 0 s ↔ Maximal (Free sep l) s := by
  constructor
  · intro h
    refine ⟨free_iff.mpr ⟨h.nonempty, h.all⟩, fun t ht hst => ?_⟩
    have hplain := (free_iff.mp ht).2
    have hlow : t.start ≤ s.start := hst.1
    have hhigh : s.stop ≤ t.stop := hst.2
    have hne := h.nonempty
    constructor
    · by_contra hlt
      exact h.left (s.start - 1) (Nat.zero_le _) (by omega) (hplain _ (by omega) (by omega))
    · by_contra hlt
      exact h.right (hplain _ (by omega) (by omega))
  · intro h
    obtain ⟨hne, hplain⟩ := free_iff.mp h.prop
    refine ⟨Nat.zero_le _, hne, hplain, fun i _ hi hFi => ?_, fun hF => ?_⟩
    -- a longer part to the left, and one to the right
    · have hfree : Free sep l ⟨i, s.stop⟩ := by
        refine free_iff.mpr ⟨by change i < s.stop; omega, fun j hlow hhigh => ?_⟩
        rcases Nat.eq_or_lt_of_le hlow with rfl | hlt
        · exact hFi
        · exact hplain j (by change i < j at hlt; omega) hhigh
      have hle : s.start ≤ i := (h.le_of_ge hfree ⟨by change i ≤ s.start; omega, le_rfl⟩).1
      omega
    · have hfree : Free sep l ⟨s.start, s.stop + 1⟩ := by
        refine free_iff.mpr ⟨by change s.start < s.stop + 1; omega, fun j hlow hhigh => ?_⟩
        rcases Nat.lt_succ_iff_lt_or_eq.mp hhigh with hlt | rfl
        · exact hplain j hlow hlt
        · exact hF
      have hle : s.stop + 1 ≤ s.stop := (h.le_of_ge hfree ⟨le_rfl, Nat.le_succ _⟩).2
      omega

/-- A list, whose first element is at `p`, cut into separators and the parts between them. -/
inductive Splits (sep : α → Prop) : ℕ → List α → List Span → Prop
  | done {p : ℕ} {gap : List α} (hgap : ∀ c ∈ gap, sep c) : Splits sep p gap []
  | last {p : ℕ} {gap word : List α} (hgap : ∀ c ∈ gap, sep c) (hne : word ≠ [])
      (hword : ∀ c ∈ word, ¬ sep c) :
      Splits sep p (gap ++ word) [⟨p + gap.length, p + gap.length + word.length⟩]
  | next {p : ℕ} {gap word tail : List α} {x : α} {ws : List Span} (hgap : ∀ c ∈ gap, sep c)
      (hne : word ≠ []) (hword : ∀ c ∈ word, ¬ sep c) (hx : sep x)
      (htail : Splits sep (p + gap.length + word.length + 1) tail ws) :
      Splits sep p (gap ++ (word ++ x :: tail))
        (⟨p + gap.length, p + gap.length + word.length⟩ :: ws)

theorem exists_cut (q : α → Prop) (l : List α) :
    ∃ pre post, l = pre ++ post ∧ (∀ c ∈ pre, q c) ∧ ∀ c ∈ post.head?, ¬ q c := by
  induction l with
  | nil => exact ⟨[], [], rfl, List.forall_mem_nil _, fun c hc => by cases hc⟩
  | cons c l ih =>
    by_cases hc : q c
    · obtain ⟨pre, post, rfl, hpre, hpost⟩ := ih
      exact ⟨c :: pre, post, rfl, List.forall_mem_cons.mpr ⟨hc, hpre⟩, hpost⟩
    · refine ⟨[], c :: l, rfl, List.forall_mem_nil _, fun x hx => ?_⟩
      cases hx
      exact hc

theorem exists_splits (sep : α → Prop) (p : ℕ) (l : List α) : ∃ ws, Splits sep p l ws := by
  induction hlen : l.length using Nat.strong_induction_on generalizing p l with
  | _ n ih =>
    obtain ⟨gap, post, rfl, hgap, hpost⟩ := exists_cut sep l
    obtain ⟨word, tail, rfl, hword, htail⟩ := exists_cut (fun c => ¬ sep c) post
    cases word with
    | nil =>
      cases tail with
      | nil =>
        rw [List.append_nil, List.append_nil]
        exact ⟨[], .done hgap⟩
      | cons x tail => exact absurd (hpost x rfl) (htail x rfl)
    | cons c word =>
      cases tail with
      | nil =>
        rw [List.append_nil]
        exact ⟨_, .last hgap (List.cons_ne_nil c word) hword⟩
      | cons x tail =>
        have hlt : tail.length < n := by
          rw [← hlen, List.length_append, List.length_append, List.length_cons, List.length_cons]
          omega
        obtain ⟨ws, hws⟩ := ih tail.length hlt (p + gap.length + (c :: word).length + 1) tail rfl
        exact ⟨_, .next hgap (List.cons_ne_nil c word) hword (not_not.mp (htail x rfl)) hws⟩

section Places
variable {F : ℕ → Prop} {gap word : List α}

theorem not_plain_gap (hF : ∀ i, F (p + i) ↔ Plain sep (gap ++ l) i) (hgap : ∀ c ∈ gap, sep c)
    (i : ℕ) (hlow : p ≤ i) (hhigh : i < p + gap.length) : ¬ F i := by
  obtain ⟨j, rfl⟩ := Nat.exists_eq_add_of_le hlow
  rw [hF]
  rintro ⟨c, hc, hsep⟩
  rw [List.getElem?_append_left (by omega)] at hc
  exact hsep (hgap c (List.mem_of_getElem? hc))

theorem plain_word (hF : ∀ i, F (p + i) ↔ Plain sep (gap ++ (word ++ l)) i)
    (hword : ∀ c ∈ word, ¬ sep c) (i : ℕ) (hlow : p + gap.length ≤ i)
    (hhigh : i < p + gap.length + word.length) : F i := by
  obtain ⟨j, rfl⟩ := Nat.exists_eq_add_of_le hlow
  have hj : j < word.length := by omega
  rw [Nat.add_assoc, hF]
  refine ⟨word[j], ?_, hword _ (List.getElem_mem hj)⟩
  rw [List.getElem?_append_right (by omega), Nat.add_sub_cancel_left, List.getElem?_append_left hj,
    List.getElem?_eq_getElem hj]

end Places

theorem Splits.mem_iff {F : ℕ → Prop} (h : Splits sep p l ws)
    (hF : ∀ i, F (p + i) ↔ Plain sep l i) (s : Span) : s ∈ ws ↔ IsRun F p s := by
  induction h with
  | done hgap =>
    refine iff_of_false List.not_mem_nil (not_isRun fun i hi hFi => ?_)
    obtain ⟨j, rfl⟩ := Nat.exists_eq_add_of_le hi
    obtain ⟨c, hc, hsep⟩ := (hF j).mp hFi
    exact hsep (hgap c (List.mem_of_getElem? hc))
  | @last p gap word hgap hne hword =>
    have hpos : 0 < word.length := List.length_pos_of_ne_nil hne
    have hbehind : ∀ i, p + gap.length + word.length ≤ i → ¬ F i := by
      intro i hi hFi
      obtain ⟨j, rfl⟩ := Nat.exists_eq_add_of_le hi
      have hlt := ((hF (gap.length + word.length + j)).mp (by rwa [← Nat.add_assoc, ← Nat.add_assoc])).lt
      rw [List.length_append] at hlt
      omega
    have hfirst := isRun_iff (s := s) (not_plain_gap hF hgap) (Nat.le_add_right _ _)
      (Nat.lt_add_of_pos_right hpos)
      (plain_word (l := []) (by rwa [List.append_nil]) hword) (hbehind _ le_rfl)
    rw [List.mem_singleton, hfirst]
    refine (or_iff_left (not_isRun fun i hi => hbehind i ?_)).symm
    omega
  | @next p gap word tail x ws hgap hne hword hx htail ih =>
    have hpos : 0 < word.length := List.length_pos_of_ne_nil hne
    have htailF : ∀ i, F (p + gap.length + word.length + 1 + i) ↔ Plain sep tail i := by
      intro i
      have hplace : p + gap.length + word.length + 1 + i = p + (gap.length + (word.length + (i + 1))) := by
        omega
      rw [hplace, hF, Plain, Plain, List.getElem?_append_right (Nat.le_add_right _ _),
        Nat.add_sub_cancel_left, List.getElem?_append_right (Nat.le_add_right _ _),
        Nat.add_sub_cancel_left, List.getElem?_cons_succ]
    have hstop : ¬ F (p + gap.length + word.length) := by
      rw [Nat.add_assoc, hF]
      rintro ⟨c, hc, hsep⟩
      rw [List.getElem?_append_right (Nat.le_add_right _ _), Nat.add_sub_cancel_left,
        List.getElem?_append_right le_rfl, Nat.sub_self] at hc
      cases hc
      exact hsep hx
    rw [List.mem_cons, ih htailF, isRun_iff (not_plain_gap hF hgap) (Nat.le_add_right _ _)
      (Nat.lt_add_of_pos_right hpos) (plain_word hF hword) hstop]

theorem Splits.ordered (h : Splits sep p l ws) :
    (ws.Pairwise fun s t => s.stop < t.start) ∧ ∀ s ∈ ws, p ≤ s.start := by
  induction h with
  | done _ => exact ⟨.nil, List.forall_mem_nil _⟩
  | @last p gap word _ _ _ =>
    refine ⟨List.pairwise_singleton _ _, fun s hs => ?_⟩
    rw [List.mem_singleton.mp hs]
    exact Nat.le_add_right _ _
  | @next p gap word tail x ws _ _ _ _ _ ih =>
    refine ⟨List.pairwise_cons.mpr ⟨fun t ht => ih.2 t ht, ih.1⟩, fun s hs => ?_⟩
    rcases List.mem_cons.mp hs with rfl | hs
    · exact Nat.le_add_right _ _
    · have hle := ih.2 s hs
      omega

theorem Splits.runs (h : Splits sep 0 l ws) : Runs sep l ws where
  mem_iff s := by
    rw [h.mem_iff (F := Plain sep l) (fun i => by rw [Nat.zero_add]), isRun_iff_maximal]
  ordered := h.ordered.1

end Splits

end Bingos.MaximalRuns
