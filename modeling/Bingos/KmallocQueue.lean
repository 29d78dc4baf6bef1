import Bingos.KmallocHeap

set_option autoImplicit false

/-! The queue of huge blocks, a doubly linked list of small heap blocks. -/
namespace Bingos.Kmalloc
open MachineWords PointerChains

/-- Two records of three words that do not overlap. -/
def Sep (x y : ℕ) : Prop := x + 12 ≤ y ∨ y + 12 ≤ x

structure Queue (m : Mem) (l : ℕ) (nodes : List ℕ) : Prop where
  next : Chain 0 (fun n => m (n + 4)) (m l) nodes
  prev : Chain 0 m (m (l + 4)) nodes.reverse
  sep : ∀ n ∈ nodes, Sep l n
  spread : ∀ x ∈ nodes, ∀ y ∈ nodes, x ≠ y → Sep x y

theorem ite_store_apply (c : Prop) [Decidable c] (m : Mem) (a w b : ℕ) :
    (if c then store m a w else m) b = if c ∧ b = a then w else m b := by
  by_cases hc : c
  · simp only [hc, if_true, store_apply, true_and]
  · simp only [hc, if_false, false_and]

variable {post pre nodes : List ℕ} {m : Mem} {l n a value : ℕ}

theorem listDelete_apply {prev next : ℕ} (hprev : m n = prev) (hnext : m (n + 4) = next)
    (hl : Sep l n) (hp : prev ≠ 0 → Sep prev n) (ha : a ≠ l + 8) : listDelete m l n a =
      if next ≠ 0 ∧ a = next then prev
      else if prev ≠ 0 ∧ a = prev + 4 then next
      else if n = m (l + 4) ∧ a = l + 4 then prev
      else if n = m l ∧ a = l then next else m a := by
  unfold Sep at *
  let m₁ : Mem := if n = m l then store m l (m (n + 4)) else m
  have h₁ : ∀ b, m₁ b = if n = m l ∧ b = l then next else m b := by
    intro b
    rw [← hnext]
    exact ite_store_apply _ _ _ _ _
  have h₁n : m₁ n = prev := by rw [h₁, if_neg (by omega), hprev]
  have h₁n4 : m₁ (n + 4) = next := by rw [h₁, if_neg (by omega), hnext]
  have h₁l : m₁ (l + 4) = m (l + 4) := by rw [h₁, if_neg (by omega)]
  let m₂ : Mem := if n = m₁ (l + 4) then store m₁ (l + 4) (m₁ n) else m₁
  have h₂ : ∀ b, m₂ b = if n = m (l + 4) ∧ b = l + 4 then prev else m₁ b := by
    intro b
    rw [← h₁n, ← h₁l]
    exact ite_store_apply _ _ _ _ _
  have h₂n : m₂ n = prev := by rw [h₂, if_neg (by omega), h₁n]
  have h₂n4 : m₂ (n + 4) = next := by rw [h₂, if_neg (by omega), h₁n4]
  let m₃ : Mem := if m₂ n ≠ 0 then store m₂ (m₂ n + 4) (m₂ (n + 4)) else m₂
  have h₃ : ∀ b, m₃ b = if prev ≠ 0 ∧ b = prev + 4 then next else m₂ b := by
    intro b
    rw [← h₂n, ← h₂n4]
    exact ite_store_apply _ _ _ _ _
  have h₃n : m₃ n = prev := by rw [h₃, if_neg (by omega), h₂n]
  have h₃n4 : m₃ (n + 4) = next := by rw [h₃, if_neg (by omega), h₂n4]
  let m₄ : Mem := if m₃ (n + 4) ≠ 0 then store m₃ (m₃ (n + 4)) (m₃ n) else m₃
  have h₄ : ∀ b, m₄ b = if next ≠ 0 ∧ b = next then prev else m₃ b := by
    intro b
    rw [← h₃n, ← h₃n4]
    exact ite_store_apply _ _ _ _ _
  change store m₄ (l + 8) (sub32 (m₄ (l + 8)) 1) a = _
  rw [store_apply, if_neg ha, h₄, h₃, h₂, h₁]

theorem Queue.prev_eq (hq : Queue m l (pre ++ n :: post)) :
    m n = pre.getLast?.getD 0 := by
  have hprev := hq.prev
  rw [List.reverse_append, List.reverse_cons, List.append_assoc, List.singleton_append] at hprev
  rw [← List.head?_reverse]
  exact hprev.after.2.eq_head

theorem Queue.next_eq (hq : Queue m l (pre ++ n :: post)) :
    m (n + 4) = post.head?.getD 0 :=
  hq.next.after.2.eq_head

theorem getD_ne_zero {o : Option ℕ} {x : ℕ} (h : o.getD 0 = x) (hx : x ≠ 0) : o = some x := by
  cases o with
  | none => exact absurd h.symm hx
  | some y => exact congrArg some h

theorem Queue.eq_first_iff (hq : Queue m l (pre ++ n :: post)) : n = m l ↔ pre = [] := by
  have hnodup := hq.next.nodup
  have hstart := hq.next.eq_head
  cases pre with
  | nil => simpa using hstart.symm
  | cons b pre =>
    simp only [List.cons_append, List.head?_cons, Option.getD_some] at hstart
    have hne : n ≠ b := by
      rintro rfl
      simp at hnodup
    simp only [List.cons_ne_nil, iff_false]
    omega

theorem Queue.eq_last_iff (hq : Queue m l (pre ++ n :: post)) : n = m (l + 4) ↔ post = [] := by
  have hnodup := hq.next.nodup
  have hstart := hq.prev.eq_head
  rw [List.head?_reverse] at hstart
  rcases List.eq_nil_or_concat post with rfl | ⟨rest, b, rfl⟩
  · simpa using hstart.symm
  · rw [List.concat_eq_append, ← List.cons_append, ← List.append_assoc, List.getLast?_concat,
      Option.getD_some] at hstart
    have hne : n ≠ b := by
      rintro rfl
      simp [List.nodup_append] at hnodup
    rw [List.concat_eq_append, List.append_eq_nil_iff]
    simp only [List.cons_ne_nil, and_false, iff_false]
    omega

theorem Queue.delete (hq : Queue m l (pre ++ n :: post)) :
    Queue (listDelete m l n) l (pre ++ post) ∧
    ∀ a, (a < l ∨ l + 12 ≤ a) → (∀ x ∈ pre ++ post, a < x ∨ x + 8 ≤ a) →
      listDelete m l n a = m a := by
  have hnodup := hq.next.nodup
  rw [List.nodup_middle, List.nodup_cons] at hnodup
  have hsub : ∀ x ∈ pre ++ post, x ∈ pre ++ n :: post := by
    intro x hx
    apply List.Sublist.subset _ hx
    exact (List.sublist_cons_self n post).append_left pre
  have hsep : ∀ x ∈ pre ++ post, Sep l x ∧ Sep x n := by
    intro x hx
    refine ⟨hq.sep x (hsub x hx), hq.spread x (hsub x hx) n (by simp) ?_⟩
    rintro rfl
    exact hnodup.1 hx
  have hpair : ∀ x ∈ pre ++ post, ∀ y ∈ pre ++ post, x = y ∨ Sep x y := by
    intro x hx y hy
    by_cases hxy : x = y
    · exact Or.inl hxy
    · exact Or.inr (hq.spread x (hsub x hx) y (hsub y hy) hxy)
  obtain ⟨p, hp⟩ : ∃ p, m n = p := ⟨_, rfl⟩
  obtain ⟨t, ht⟩ : ∃ t, m (n + 4) = t := ⟨_, rfl⟩
  have hlast : pre.getLast?.getD 0 = p := hq.prev_eq.symm.trans hp
  have hhead : post.head?.getD 0 = t := hq.next_eq.symm.trans ht
  have hpmem : p ≠ 0 → p ∈ pre ++ post :=
    fun h => List.mem_append_left _ (List.mem_of_getLast? (getD_ne_zero hlast h))
  have htmem : t ≠ 0 → t ∈ pre ++ post :=
    fun h => List.mem_append_right _ (List.mem_of_head? (getD_ne_zero hhead h))
  have hln := hq.sep n (by simp)
  have hmem := fun a (ha : a ≠ l + 8) =>
    listDelete_apply hp ht hln (fun h => (hsep p (hpmem h)).2) ha
  unfold Sep at hsep hpair hln
  -- the words of a kept node other than the two links that are redirected
  have hkept : ∀ x ∈ pre ++ post, ∀ d, d = 0 ∨ d = 4 → (d = 0 → x ≠ t) → (d = 4 → x ≠ p) →
      listDelete m l n (x + d) = m (x + d) := by
    intro x hx d hd hxt hxp
    have hs := hsep x hx
    rw [hmem _ (by omega), if_neg, if_neg, if_neg (by omega), if_neg (by omega)]
    · rintro ⟨hp0, heq⟩
      have := hpair x hx p (hpmem hp0)
      omega
    · rintro ⟨ht0, heq⟩
      have := hpair x hx t (htmem ht0)
      omega
  have hfirst := hq.eq_first_iff
  have hfinal := hq.eq_last_iff
  have hlt : t ≠ 0 → l + 12 ≤ t ∨ t + 12 ≤ l := fun h => (hsep t (htmem h)).1
  have hlp : p ≠ 0 → l + 12 ≤ p ∨ p + 12 ≤ l := fun h => (hsep p (hpmem h)).1
  refine ⟨⟨?_, ?_, fun x hx => (hsep x hx).1,
    fun x hx y hy hxy => hq.spread x (hsub x hx) y (hsub y hy) hxy⟩, ?_⟩
  · have hstart : listDelete m l n l = if pre = [] then m (n + 4) else m l := by
      rw [hmem l (by omega), if_neg (by omega), if_neg (by omega), if_neg (by omega), ht]
      exact if_congr (by simp [hfirst]) rfl rfl
    rw [hstart]
    refine hq.next.remove (fun y hy => ?_) (fun y hy hne => ?_)
    · have hyp : y = p := by
        rw [hy] at hlast
        exact hlast
      have hymem : y ∈ pre ++ post := List.mem_append_left _ (List.mem_of_getLast? hy)
      have hyn := hq.next.ne_null y (hsub y hymem)
      have hs := hsep y hymem
      have hyt : t ≠ 0 → y + 4 ≠ t := fun h0 => by
        have := hpair y hymem t (htmem h0)
        omega
      subst hyp
      rw [hmem (y + 4) (by omega), if_neg (fun h => hyt h.1 h.2), if_pos ⟨hyn, rfl⟩]
      exact ht.symm
    · refine hkept y hy 4 (by omega) (by omega) (fun _ hyp => ?_)
      subst hyp
      exact hne (getD_ne_zero hlast (hq.next.ne_null y (hsub y hy)))
  · have hprev := hq.prev
    rw [List.reverse_append, List.reverse_cons, List.append_assoc, List.singleton_append] at hprev
    rw [List.reverse_append]
    have hstart : listDelete m l n (l + 4) =
        if post.reverse = [] then m n else m (l + 4) := by
      rw [hmem (l + 4) (by omega), if_neg (by omega), if_neg (by omega), hp,
        if_neg (show ¬(n = m l ∧ l + 4 = l) by omega)]
      exact if_congr (by simp [hfinal]) rfl rfl
    rw [hstart]
    refine hprev.remove (fun y hy => ?_) (fun y hy hne => ?_)
    · rw [List.getLast?_reverse] at hy
      have hyt : y = t := by
        rw [hy] at hhead
        exact hhead
      have hymem : y ∈ pre ++ post := List.mem_append_right _ (List.mem_of_head? hy)
      have hyn := hq.next.ne_null y (hsub y hymem)
      have hs := hsep y hymem
      subst hyt
      rw [hmem y (by omega), if_pos ⟨hyn, rfl⟩]
      exact hp.symm
    · have hymem : y ∈ pre ++ post := by
        rw [List.mem_append, List.mem_reverse, List.mem_reverse] at hy
        exact List.mem_append.mpr hy.symm
      refine hkept y hymem 0 (by omega) (fun _ hyt => ?_) (by omega)
      subst hyt
      rw [List.getLast?_reverse] at hne
      exact hne (getD_ne_zero hhead (hq.next.ne_null y (hsub y hymem)))
  · intro a hal hax
    rw [hmem a (by omega), if_neg, if_neg, if_neg (by omega), if_neg (by omega)]
    · rintro ⟨hp0, rfl⟩
      have := hax p (hpmem hp0)
      omega
    · rintro ⟨ht0, rfl⟩
      have := hax a (htmem ht0)
      omega

theorem Queue.congr {m' : Mem} (hq : Queue m l nodes) (hl : m' l = m l ∧ m' (l + 4) = m (l + 4))
    (hn : ∀ n ∈ nodes, m' n = m n ∧ m' (n + 4) = m (n + 4)) : Queue m' l nodes := by
  refine ⟨?_, ?_, hq.sep, hq.spread⟩
  · rw [hl.1]
    exact hq.next.congr (fun n h => (hn n h).2)
  · rw [hl.2]
    exact hq.prev.congr (fun n h => (hn n (List.mem_reverse.mp h)).1)

theorem pushNode_apply {first : ℕ} (hfirst : m l = first) (hl : Sep l n)
    (hf : first ≠ 0 → Sep l first ∧ Sep first n) (ha : a ≠ l + 8) :
    pushNode m l n value a =
      if a = l then n else if a = n + 4 then first else if first = 0 ∧ a = l + 4 then n
      else if first ≠ 0 ∧ a = first then n else if a = n then 0
      else if a = n + 8 then value else m a := by
  unfold Sep at *
  let m₁ := store (store (store m (n + 8) value) (n + 4) 0) n 0
  have h₁ : ∀ b, m₁ b = if b = n then 0 else if b = n + 4 then 0
      else if b = n + 8 then value else m b := by
    intro b
    simp only [m₁, store_apply]
  have h₁l : m₁ l = first := by
    rw [h₁, if_neg (by omega), if_neg (by omega), if_neg (by omega), hfirst]
  unfold pushNode
  simp only [store_apply _ (l + 8), if_neg ha]
  rw [store_apply]
  change (if a = l then n else (if m₁ l = 0 then store m₁ (l + 4) n
    else store (store m₁ (m₁ l) n) (n + 4) (store m₁ (m₁ l) n l)) a) = _
  rw [h₁l]
  by_cases hz : first = 0
  · rw [if_pos hz, store_apply, h₁]
    simp only [hz, true_and, ne_eq, not_true_eq_false, false_and, if_false]
    split_ifs <;> first | rfl | omega
  · have hf' := hf hz
    have hread : store m₁ first n l = first := by rw [store_apply, if_neg (by omega), h₁l]
    rw [if_neg hz, hread, store_apply, store_apply, h₁]
    simp only [hz, false_and, if_false, ne_eq, not_false_eq_true, true_and]
    split_ifs <;> rfl

theorem Queue.push (hq : Queue m l nodes)
    (hn : n ≠ 0) (hl : Sep l n) (hsep : ∀ x ∈ nodes, Sep x n) :
    Queue (pushNode m l n value) l (n :: nodes) ∧ pushNode m l n value (n + 8) = value ∧
    ∀ a, (a < l ∨ l + 12 ≤ a) → (a < n ∨ n + 12 ≤ a) → (∀ x ∈ nodes, a < x ∨ x + 8 ≤ a) →
      pushNode m l n value a = m a := by
  obtain ⟨f, hf⟩ : ∃ f, m l = f := ⟨_, rfl⟩
  have hhead : nodes.head?.getD 0 = f := hq.next.eq_head.symm.trans hf
  have hfmem : f ≠ 0 → f ∈ nodes := fun h => List.mem_of_head? (getD_ne_zero hhead h)
  have hmem := fun a (ha : a ≠ l + 8) => @pushNode_apply m l n a value f hf hl
    (fun h => ⟨hq.sep f (hfmem h), hsep f (hfmem h)⟩) ha
  have hpair : ∀ x ∈ nodes, ∀ y ∈ nodes, x = y ∨ Sep x y := by
    intro x hx y hy
    by_cases hxy : x = y
    · exact Or.inl hxy
    · exact Or.inr (hq.spread x hx y hy hxy)
  have hql := hq.sep
  have hspread := hq.spread
  unfold Sep at hl hsep hpair hql
  have hfl : f ≠ 0 → l + 12 ≤ f ∨ f + 12 ≤ l := fun h => hql f (hfmem h)
  have hfn : f ≠ 0 → f + 12 ≤ n ∨ n + 12 ≤ f := fun h => hsep f (hfmem h)
  refine ⟨⟨?_, ?_, ?_, ?_⟩, ?_, ?_⟩
  · rw [hmem l (by omega), if_pos rfl]
    refine ⟨rfl, hn, ?_⟩
    change Chain 0 _ (pushNode m l n value (n + 4)) _
    rw [hmem (n + 4) (by omega), if_neg (by omega), if_pos rfl, ← hf]
    refine hq.next.congr (fun x hx => ?_)
    have h1 := hql x hx
    have h2 := hsep x hx
    rw [hmem (x + 4) (by omega), if_neg (by omega), if_neg (by omega), if_neg (by omega), if_neg,
      if_neg (by omega), if_neg (by omega)]
    rintro ⟨hf0, heq⟩
    have := hpair x hx f (hfmem hf0)
    omega
  · rw [List.reverse_cons]
    have hstart : pushNode m l n value (l + 4) =
        if nodes.reverse = [] then n else m (l + 4) := by
      rw [hmem (l + 4) (by omega), if_neg (by omega), if_neg (by omega)]
      have hiff : f = 0 ↔ nodes = [] := by
        rw [← hf]
        exact hq.next.eq_null_iff
      by_cases hz : f = 0
      · rw [if_pos ⟨hz, rfl⟩, if_pos (by simpa using hiff.mp hz)]
      · rw [if_neg (by omega), if_neg (by omega), if_neg (by omega), if_neg (by omega),
          if_neg (by simpa using fun h => hz (hiff.mpr h))]
    rw [hstart]
    refine hq.prev.snoc hn ?_ (fun y hy => ?_) (fun y hy hne => ?_)
    · rw [hmem n (by omega), if_neg (by omega), if_neg (by omega), if_neg (by omega),
        if_neg (by omega), if_pos rfl]
    · rw [List.getLast?_reverse] at hy
      have hymem := List.mem_of_head? hy
      have hy0 := hq.next.ne_null y hymem
      have hyf : y = f := by
        rw [hy] at hhead
        exact hhead
      have h1 := hql y hymem
      have h2 := hsep y hymem
      rw [hmem y (by omega), if_neg (by omega), if_neg (by omega), if_neg (by omega),
        if_pos ⟨hyf ▸ hy0, hyf⟩]
    · rw [List.getLast?_reverse] at hne
      have hymem := List.mem_reverse.mp hy
      have h1 := hql y hymem
      have h2 := hsep y hymem
      rw [hmem y (by omega), if_neg (by omega), if_neg (by omega), if_neg (by omega), if_neg,
        if_neg (by omega), if_neg (by omega)]
      rintro ⟨hf0, rfl⟩
      exact hne (getD_ne_zero hhead hf0)
  · intro x hx
    rcases List.mem_cons.mp hx with rfl | hx
    · exact hl
    · exact hql x hx
  · intro x hx y hy hxy
    rcases List.mem_cons.mp hx with hxn | hxm
    · rcases List.mem_cons.mp hy with hyn | hym
      · exact absurd (hxn.trans hyn.symm) hxy
      · exact hxn ▸ (hsep y hym).symm
    · rcases List.mem_cons.mp hy with hyn | hym
      · exact hyn ▸ hsep x hxm
      · exact hspread x hxm y hym hxy
  · rw [hmem (n + 8) (by omega), if_neg (by omega), if_neg (by omega), if_neg (by omega),
      if_neg (by omega), if_neg (by omega), if_pos rfl]
  · intro a hal han hax
    rw [hmem a (by omega), if_neg (by omega), if_neg (by omega), if_neg (by omega), if_neg,
      if_neg (by omega), if_neg (by omega)]
    rintro ⟨hf0, rfl⟩
    have := hax a (hfmem hf0)
    omega

end Bingos.Kmalloc
