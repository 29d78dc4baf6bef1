import Bingos.ForkIsolation

set_option autoImplicit false

/-! The permission bits of a cloned page table. `table_clone` maps every page
with fixed permissions first and then only adds those of its source. -/
namespace Bingos.Mmap
open MachineWords Frames

def SameAccess (p q : Page) : Prop := q.present = p.present ∧ q.rw = p.rw ∧ q.user = p.user

theorem cloneFlags_sameAccess_iff (p : Page) (f : ℕ) :
    SameAccess p (cloneFlags p (mappedPage false false f)) ↔ p.present = true ∧ p.user = true := by
  constructor
  · intro h
    exact ⟨h.1.symm, h.2.2.symm⟩
  · intro h
    exact ⟨h.1.symm, rfl, h.2.symm⟩

/-- The entry `i` of `tabl` after the loop of `table_clone` has passed it. -/
def PageCopied (src tabl : ℕ) (M M' : Machine) (i : ℕ) : Prop :=
  if (readPage M.space ⟨src, i⟩).addr = 0 then
    readPage M'.space ⟨tabl, i⟩ = readPage M.space ⟨tabl, i⟩
  else ∃ f, readPage M'.space ⟨tabl, i⟩ =
    cloneFlags (readPage M.space ⟨src, i⟩) (mappedPage false false f)

structure EntriesCopied (src tabl : ℕ) (js : List ℕ) (M M' : Machine) : Prop where
  others : ∀ t, t ≠ tabl → M'.space.tables t = M.space.tables t
  backed : (M'.space.tables tabl).isSome
  passed : ∀ i ∈ js, PageCopied src tabl M M' i
  ahead : ∀ i, i ∉ js → readPage M'.space ⟨tabl, i⟩ = readPage M.space ⟨tabl, i⟩

variable {M M' : Machine} {src tabl j : ℕ} {js : List ℕ}

theorem clonePage_copied
    (hbacked : (M.space.tables tabl).isSome) (hbare : (readPage M.space ⟨tabl, j⟩).addr = 0)
    (h : clonePage src tabl M j = some M') : EntriesCopied src tabl [j] M M' := by
  by_cases hp : (readPage M.space ⟨src, j⟩).addr = 0
  · rw [clonePage, if_pos hp] at h
    cases h
    refine ⟨fun _ _ => rfl, hbacked, ?_, fun _ _ => rfl⟩
    intro i hi
    rw [List.mem_singleton.mp hi, PageCopied, if_pos hp]
  · rw [clonePage, if_neg hp] at h
    obtain ⟨s, hmap, rfl⟩ := Option.map_eq_some_iff.mp h
    cases halloc : allocFrame M.space.frames with
    | none => simp [pageMap, hbare, halloc] at hmap
    | some r =>
      obtain ⟨f, m⟩ := r
      obtain ⟨s₁, hmap₁, -, -, hread, hothers, hsome⟩ :=
        pageMap_bare (r := ⟨tabl, j⟩) false false hbacked hbare halloc
      obtain rfl : s₁ = s := Option.some.inj (hmap₁.symm.trans hmap)
      have hb : (s₁.tables tabl).isSome := by rwa [hsome]
      have hwrite : ∀ q i, readPage (writePage s₁ ⟨tabl, j⟩ q) ⟨tabl, i⟩ =
          if i = j then q else readPage M.space ⟨tabl, i⟩ := by
        intro q i
        rw [readPage_writePage (r := ⟨tabl, j⟩) hb, hread]
        by_cases hij : i = j
        · rw [hij, if_pos rfl, if_pos rfl]
        · have hne : (⟨tabl, i⟩ : PageRef) ≠ ⟨tabl, j⟩ := fun he => hij (congrArg PageRef.index he)
          rw [if_neg hne, if_neg hne, if_neg hij]
      refine ⟨?_, ?_, ?_, ?_⟩
      · intro t ht
        rw [writePage_tables_of_ne _ _ _ ht, hothers t ht]
      · rwa [writePage_isSome]
      · intro i hi
        obtain rfl := List.mem_singleton.mp hi
        rw [PageCopied, if_neg hp]
        refine ⟨f, ?_⟩
        rw [hwrite, if_pos rfl, hread, if_pos rfl]
      · intro i hi
        rw [hwrite, if_neg fun he => hi (List.mem_singleton.mpr he)]

theorem EntriesCopied.cons {M₁ : Machine} (hne : src ≠ tabl)
    (hj : j ∉ js) (h₁ : EntriesCopied src tabl [j] M M₁) (h : EntriesCopied src tabl js M₁ M') :
    EntriesCopied src tabl (j :: js) M M' := by
  have hsrc : ∀ i, readPage M₁.space ⟨src, i⟩ = readPage M.space ⟨src, i⟩ :=
    readPage_congr (h₁.others src hne)
  refine ⟨?_, h.backed, ?_, ?_⟩
  · intro t ht
    rw [h.others t ht, h₁.others t ht]
  · intro i hi
    by_cases hij : i = j
    · have hfirst := h₁.passed i (List.mem_singleton.mpr hij)
      rw [PageCopied, h.ahead i (hij ▸ hj)]
      exact hfirst
    · have hlater := h.passed i (List.mem_of_ne_of_mem hij hi)
      rw [PageCopied, hsrc, h₁.ahead i fun hm => hij (List.mem_singleton.mp hm)] at hlater
      exact hlater
  · intro i hi
    rw [List.mem_cons, not_or] at hi
    rw [h.ahead i hi.2, h₁.ahead i fun hm => hi.1 (List.mem_singleton.mp hm)]

theorem clonePages_copied (hne : src ≠ tabl) (hnodup : js.Nodup)
    (hbacked : (M.space.tables tabl).isSome)
    (hbare : ∀ j ∈ js, (readPage M.space ⟨tabl, j⟩).addr = 0)
    (h : js.foldlM (clonePage src tabl) M = some M') : EntriesCopied src tabl js M M' := by
  induction js generalizing M with
  | nil =>
    cases h
    exact ⟨fun _ _ => rfl, hbacked, by simp, fun _ _ => rfl⟩
  | cons j js ih =>
    obtain ⟨hj, hnodup⟩ := List.nodup_cons.mp hnodup
    rw [List.foldlM_cons] at h
    obtain ⟨M₁, hstep, hrest⟩ := Option.bind_eq_some_iff.mp h
    have h₁ := clonePage_copied hbacked (hbare j List.mem_cons_self) hstep
    have hbare₁ : ∀ i ∈ js, (readPage M₁.space ⟨tabl, i⟩).addr = 0 := by
      intro i hi
      rw [h₁.ahead i fun hm => hj (List.mem_singleton.mp hm ▸ hi)]
      exact hbare i (List.mem_cons_of_mem _ hi)
    exact h₁.cons hne hj (ih hnodup h₁.backed hbare₁ hrest)

/-- Entry by entry: without a frame the copy is empty, with one it gets the
permissions of a user page and those of its source on top. -/
theorem tableClone_page (hne : src ≠ tabl)
    (h : tableClone M src tabl = some M') {i : ℕ} (hi : i < 1024) :
    if (readPage M.space ⟨src, i⟩).addr = 0 then readPage M'.space ⟨tabl, i⟩ = Page.zero
    else ∃ f, readPage M'.space ⟨tabl, i⟩ =
      cloneFlags (readPage M.space ⟨src, i⟩) (mappedPage false false f) := by
  have hblank : ∀ j, readPage (zeroTable M.space tabl) ⟨tabl, j⟩ = Page.zero := by
    intro j
    simp [zeroTable, readPage]
  have hsrc : ∀ j, readPage (zeroTable M.space tabl) ⟨src, j⟩ = readPage M.space ⟨src, j⟩ :=
    readPage_congr (Function.update_of_ne hne _ _)
  have hloop := clonePages_copied hne List.nodup_range (by simp [zeroTable])
    (fun j _ => by rw [hblank]; rfl) h
  have hpage := hloop.passed i (List.mem_range.mpr hi)
  rw [PageCopied, hblank, hsrc] at hpage
  exact hpage

/-- The copy of a table grants exactly what the table grants iff the table has
no frame that user mode cannot reach. -/
theorem table_clone_access_iff {src tabl : ℕ} {M M' : Machine} (hne : src ≠ tabl)
    (h : tableClone M src tabl = some M') :
    (∀ i < 1024, (readPage M.space ⟨src, i⟩).addr ≠ 0 ∨ (readPage M'.space ⟨tabl, i⟩).addr ≠ 0 →
      SameAccess (readPage M.space ⟨src, i⟩) (readPage M'.space ⟨tabl, i⟩)) ↔
    ∀ i < 1024, (readPage M.space ⟨src, i⟩).addr ≠ 0 →
      (readPage M.space ⟨src, i⟩).present = true ∧ (readPage M.space ⟨src, i⟩).user = true := by
  constructor
  · intro hsame i hi hp
    have hpage := tableClone_page hne h hi
    rw [if_neg hp] at hpage
    obtain ⟨f, hf⟩ := hpage
    have hacc := hsame i hi (Or.inl hp)
    rw [hf] at hacc
    exact (cloneFlags_sameAccess_iff _ f).mp hacc
  · intro huser i hi hframe
    have hpage := tableClone_page hne h hi
    by_cases hp : (readPage M.space ⟨src, i⟩).addr = 0
    · rw [if_pos hp] at hpage
      rw [hp, hpage] at hframe
      rcases hframe with hz | hz
      · exact absurd rfl hz
      · exact absurd rfl hz
    · rw [if_neg hp] at hpage
      obtain ⟨f, hf⟩ := hpage
      rw [hf]
      exact (cloneFlags_sameAccess_iff _ f).mpr (huser i hi hp)

def onePage (p : Page) : Machine :=
  { forking 3#32 with
    space := { (forking 3#32).space with
      tables := fun t => if t = 2 then some fun j => if j = 0 then p else Page.zero else none } }

theorem onePage_readPage (p : Page) (i : ℕ) :
    readPage (onePage p).space ⟨2, i⟩ = if i = 0 then p else Page.zero := rfl

theorem table_clone_access_iff_user_page : ∃ M',
    tableClone (onePage (mappedPage false true 1)) 2 3 = some M' ∧
    ∀ i < 1024, (readPage (onePage (mappedPage false true 1)).space ⟨2, i⟩).addr ≠ 0 ∨
        (readPage M'.space ⟨3, i⟩).addr ≠ 0 →
      SameAccess (readPage (onePage (mappedPage false true 1)).space ⟨2, i⟩)
        (readPage M'.space ⟨3, i⟩) := by
  have hrun : (tableClone (onePage (mappedPage false true 1)) 2 3).isSome := by decide +kernel
  obtain ⟨M', hM'⟩ := Option.isSome_iff_exists.mp hrun
  refine ⟨M', hM', (table_clone_access_iff (by decide) hM').mpr ?_⟩
  intro i _ hp
  rw [onePage_readPage] at hp ⊢
  split_ifs at hp ⊢ with hi
  · exact ⟨rfl, rfl⟩
  · exact absurd rfl hp

/-- A page mapped for the kernel only, as the network driver maps its
registers, can be reached from user mode in the clone. -/
theorem driver_page_cloned_to_user : ∃ M',
    tableClone (onePage (mappedPage true true 1)) 2 3 = some M' ∧
      (readPage (onePage (mappedPage true true 1)).space ⟨2, 0⟩).user = false ∧
      (readPage (onePage (mappedPage true true 1)).space ⟨2, 0⟩).addr ≠ 0 ∧
      (readPage M'.space ⟨3, 0⟩).present = true ∧ (readPage M'.space ⟨3, 0⟩).user = true ∧
      (readPage M'.space ⟨3, 0⟩).addr ≠ 0 := by
  have hrun : (tableClone (onePage (mappedPage true true 1)) 2 3).map (fun M' =>
      ((readPage M'.space ⟨3, 0⟩).present, (readPage M'.space ⟨3, 0⟩).user,
        (readPage M'.space ⟨3, 0⟩).addr)) = some (true, true, 2) := by
    decide +kernel
  obtain ⟨M', hM', hr⟩ := Option.map_eq_some_iff.mp hrun
  obtain ⟨hpresent, hr⟩ := Prod.mk.inj hr
  obtain ⟨huser, haddr⟩ := Prod.mk.inj hr
  refine ⟨M', hM', rfl, by decide, hpresent, huser, ?_⟩
  rw [haddr]
  decide

end Bingos.Mmap
