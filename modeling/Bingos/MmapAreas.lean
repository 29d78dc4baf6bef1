import Bingos.MmapPages

set_option autoImplicit false

/-! The area list of a process as a list of separate intervals. -/
namespace Bingos.Mmap
open MachineWords

def unmapAreas (areas : List VmArea) (addr len : ℕ) : List VmArea :=
  if pageAlign len = 0 then areas
  else areas.filter (fun a => !overlaps addr (add32 addr len) a)

def mapAreas (areas : List VmArea) (addr len : ℕ) : List VmArea :=
  if pageAlign len = 0 then areas
  else insertVm (unmapAreas areas addr (pageAlign len)) ⟨addr, add32 addr (pageAlign len)⟩

def InSpace (addr len : ℕ) : Prop := addr + (len + 4095) / 4096 * 4096 < 2 ^ 32 - 4096

instance (addr len : ℕ) : Decidable (InSpace addr len) := inferInstanceAs (Decidable (_ < _))

variable {areas : List VmArea} {s t : Space} {addr len stop fuel i : ℕ} {a : VmArea}
  {kmalloc : ℕ → ℕ}

theorem InSpace.pageAlign_eq (h : InSpace addr len) :
    pageAlign len = (len + 4095) / 4096 * 4096 := by
  unfold InSpace at h
  rw [pageAlign, pageSize, add32_of_lt (by omega)]

theorem InSpace.add_lt (h : InSpace addr len) :
    addr + pageAlign len < 2 ^ 32 - 4096 ∧ len ≤ pageAlign len := by
  have he := h.pageAlign_eq
  unfold InSpace at h
  omega

theorem InSpace.pageAlign_eq_zero_iff (h : InSpace addr len) :
    pageAlign len = 0 ↔ len = 0 := by
  have he := h.pageAlign_eq
  omega

theorem InSpace.align (h : InSpace addr len) :
    InSpace addr (pageAlign len) ∧ pageAlign (pageAlign len) = pageAlign len := by
  have he := h.pageAlign_eq
  have hdiv : ∀ n : ℕ, (n * 4096 + 4095) / 4096 = n := fun n => by omega
  have hin : InSpace addr (pageAlign len) := by
    rw [InSpace, he, hdiv]
    exact h
  refine ⟨hin, ?_⟩
  rw [hin.pageAlign_eq, he, hdiv]

theorem overlaps_eq_false_iff (ha : a.vmStart < a.vmEnd)
    (hlt : addr < stop) : overlaps addr stop a = false ↔
      Disjoint (Set.Ico a.vmStart a.vmEnd) (Set.Ico addr stop) := by
  rw [Set.Ico_disjoint_Ico]
  simp only [overlaps, Bool.not_eq_false', Bool.or_eq_true, decide_eq_true_eq]
  omega

/-- Ordered intervals of the address space, none empty, that do not meet. -/
structure Separate (areas : List VmArea) : Prop where
  apart : areas.Pairwise (fun a b => a.vmEnd ≤ b.vmStart)
  nonempty : ∀ a ∈ areas, a.vmStart < a.vmEnd
  below : ∀ a ∈ areas, a.vmEnd < 2 ^ 32

theorem Separate.nil : Separate [] := ⟨.nil, nofun, nofun⟩

theorem Separate.sublist {areas' : List VmArea} (h : Separate areas)
    (hsub : areas'.Sublist areas) : Separate areas' :=
  ⟨h.apart.sublist hsub, fun a ha => h.nonempty a (hsub.subset ha),
    fun a ha => h.below a (hsub.subset ha)⟩

theorem Separate.sorted (h : Separate areas) :
    areas.Pairwise (fun a b => a.vmStart < b.vmStart) := by
  refine h.apart.imp_of_mem fun ha _ hab => ?_
  have := h.nonempty _ ha
  omega

theorem Separate.disjoint (h : Separate areas) :
    areas.Pairwise (fun a b => Disjoint (Set.Ico a.vmStart a.vmEnd) (Set.Ico b.vmStart b.vmEnd)) := by
  refine h.apart.imp fun hab => ?_
  rw [Set.Ico_disjoint_Ico]
  omega

theorem Separate.length_le (h : Separate areas) : areas.length ≤ 2 ^ 32 := by
  have hnodup : (areas.map VmArea.vmStart).Nodup :=
    List.pairwise_map.mpr (h.sorted.imp fun hlt => Nat.ne_of_lt hlt)
  have hsub : (areas.map VmArea.vmStart).toFinset ⊆ Finset.range (2 ^ 32) := by
    intro x hx
    obtain ⟨a, ha, rfl⟩ := List.mem_map.mp (List.mem_toFinset.mp hx)
    have := h.below a ha
    have := h.nonempty a ha
    exact Finset.mem_range.mpr (by omega)
  have hcard := Finset.card_le_card hsub
  rwa [List.toFinset_card_of_nodup hnodup, List.length_map, Finset.card_range] at hcard

theorem Separate.unmap (h : Separate areas) (addr len : ℕ) :
    Separate (unmapAreas areas addr len) := by
  unfold unmapAreas
  split_ifs
  · exact h
  · exact h.sublist List.filter_sublist

theorem insertVm_cons (a : VmArea) (l : List VmArea) (v : VmArea) :
    insertVm (a :: l) v = if a.vmStart ≤ v.vmStart then a :: insertVm l v else v :: a :: l := by
  by_cases h : a.vmStart ≤ v.vmStart
  · simp [insertVm, h]
  · simp [insertVm, h]

theorem insertVm_perm (l : List VmArea) (v : VmArea) : (insertVm l v).Perm (v :: l) := by
  induction l with
  | nil => exact List.Perm.refl _
  | cons a l ih =>
    rw [insertVm_cons]
    split_ifs
    · exact (ih.cons a).trans (List.Perm.swap v a l)
    · exact List.Perm.refl _

theorem Separate.insert (h : Separate areas) {v : VmArea} (hv : v.vmStart < v.vmEnd)
    (hend : v.vmEnd < 2 ^ 32) (hapart : ∀ a ∈ areas, v.vmEnd ≤ a.vmStart ∨ a.vmEnd ≤ v.vmStart) :
    Separate (insertVm areas v) := by
  refine ⟨?_, ?_, ?_⟩
  · induction areas with
    | nil => exact List.pairwise_singleton _ _
    | cons a l ih =>
      have ha := hapart a List.mem_cons_self
      have hne := h.nonempty a List.mem_cons_self
      have hrest := List.pairwise_cons.mp h.apart
      rw [insertVm_cons]
      split_ifs with hle
      · refine List.pairwise_cons.mpr ⟨fun b hb => ?_, ?_⟩
        · rcases List.mem_cons.mp ((insertVm_perm l v).subset hb) with rfl | hb
          · omega
          · exact hrest.1 b hb
        · exact ih (h.sublist (List.sublist_cons_self a l))
            fun b hb => hapart b (List.mem_cons_of_mem a hb)
      · refine List.pairwise_cons.mpr ⟨fun b hb => ?_, h.apart⟩
        rcases List.mem_cons.mp hb with rfl | hb
        · omega
        · have := hrest.1 b hb
          omega
  · intro a ha
    rcases List.mem_cons.mp ((insertVm_perm areas v).subset ha) with rfl | ha
    · exact hv
    · exact h.nonempty a ha
  · intro a ha
    rcases List.mem_cons.mp ((insertVm_perm areas v).subset ha) with rfl | ha
    · exact hend
    · exact h.below a ha

theorem unmapAreas_apart (hlen : pageAlign len ≠ 0) :
    ∀ a ∈ unmapAreas areas addr len, add32 addr len ≤ a.vmStart ∨ a.vmEnd ≤ addr := by
  intro a ha
  rw [unmapAreas, if_neg hlen, List.mem_filter] at ha
  simpa [overlaps] using ha.2

theorem Separate.map (h : Separate areas)
    (hin : InSpace addr len) : Separate (mapAreas areas addr len) := by
  unfold mapAreas
  split_ifs with hz
  · exact h
  · obtain ⟨hin', halign⟩ := hin.align
    have hlt := hin.add_lt
    have hstop : add32 addr (pageAlign len) = addr + pageAlign len := add32_of_lt (by omega)
    refine (h.unmap addr (pageAlign len)).insert ?_ ?_ (unmapAreas_apart (by rwa [halign]))
    · change addr < add32 addr (pageAlign len)
      omega
    · change add32 addr (pageAlign len) < 2 ^ 32
      omega

theorem mapAreas_count (hin : InSpace addr len)
    (hlen : 0 < len) : (mapAreas areas addr len).count ⟨addr, addr + pageAlign len⟩ = 1 := by
  have hlt := hin.add_lt
  have hz := hin.pageAlign_eq_zero_iff
  have hstop : add32 addr (pageAlign len) = addr + pageAlign len := add32_of_lt (by omega)
  obtain ⟨-, halign⟩ := hin.align
  have hnot : (⟨addr, addr + pageAlign len⟩ : VmArea) ∉ unmapAreas areas addr (pageAlign len) := by
    intro hmem
    have := unmapAreas_apart (by omega) _ hmem
    simp only at this
    omega
  rw [mapAreas, if_neg (by omega), hstop, (insertVm_perm _ _).count_eq, List.count_cons_self,
    List.count_eq_zero.mpr hnot]

theorem Separate.eq_of_meet (h : Separate areas) {b : VmArea}
    (ha : a ∈ areas) (hb : b ∈ areas) (hab : a.vmStart < b.vmEnd) (hba : b.vmStart < a.vmEnd) :
    a = b := by
  by_contra hne
  have hpair : areas.Pairwise fun a b => a.vmEnd ≤ b.vmStart ∨ b.vmEnd ≤ a.vmStart :=
    h.apart.imp Or.inl
  have : Std.Symm fun a b : VmArea => a.vmEnd ≤ b.vmStart ∨ b.vmEnd ≤ a.vmStart :=
    ⟨fun _ _ => Or.symm⟩
  rcases hpair.forall ha hb hne with h | h <;> omega

theorem Separate.mapAreas_self (h : Separate areas)
    (hin : InSpace addr len) (hz : pageAlign len ≠ 0)
    (hmem : (⟨addr, addr + pageAlign len⟩ : VmArea) ∈ areas) : mapAreas areas addr len = areas := by
  have hlt := hin.add_lt
  have hstop : add32 addr (pageAlign len) = addr + pageAlign len := add32_of_lt (by omega)
  obtain ⟨-, halign⟩ := hin.align
  refine List.Perm.eq_of_pairwise (fun a b _ _ hab hba => absurd hab hba.asymm)
    (h.map hin).sorted h.sorted ?_
  refine (List.perm_ext_iff_of_nodup ((h.map hin).sorted.imp fun hlt he => ?_)
    (h.sorted.imp fun hlt he => ?_)).mpr fun a => ?_
  · exact absurd hlt (by rw [he]; exact lt_irrefl _)
  · exact absurd hlt (by rw [he]; exact lt_irrefl _)
  · rw [mapAreas, if_neg hz, hstop, (insertVm_perm _ _).mem_iff, List.mem_cons, unmapAreas, halign,
      if_neg hz, List.mem_filter, hstop]
    constructor
    · rintro (rfl | ha)
      · exact hmem
      · exact ha.1
    · intro ha
      by_cases hov : overlaps addr (addr + pageAlign len) a = true
      · left
        simp only [overlaps, Bool.not_eq_true', Bool.or_eq_false_iff, decide_eq_false_iff_not,
          not_le] at hov
        exact h.eq_of_meet ha hmem hov.1 hov.2
      · exact Or.inr ⟨ha, by simpa using hov⟩

theorem unmapAreas_eq_filter (h : Separate areas)
    (hin : InSpace addr len) [DecidablePred fun a : VmArea =>
      Disjoint (Set.Ico a.vmStart a.vmEnd) (Set.Ico addr (addr + len))] :
    unmapAreas areas addr len = areas.filter fun a =>
      Disjoint (Set.Ico a.vmStart a.vmEnd) (Set.Ico addr (addr + len)) := by
  have hlt := hin.add_lt
  have hz := hin.pageAlign_eq_zero_iff
  unfold unmapAreas
  split_ifs with h0
  · rw [eq_comm, List.filter_eq_self]
    intro a _
    have hempty : Set.Ico addr (addr + len) = ∅ := by rw [hz.mp h0, Nat.add_zero, Set.Ico_self]
    rw [decide_eq_true_eq, hempty]
    exact Set.disjoint_empty _
  · rw [add32_of_lt (by omega)]
    refine List.filter_congr fun a ha => ?_
    have hiff := overlaps_eq_false_iff (h.nonempty a ha) (show addr < addr + len by omega)
    rw [Bool.eq_iff_iff, Bool.not_eq_true', hiff, decide_eq_true_eq]

theorem unmapLoop_mmap (h : unmapLoop s i stop fuel = some t) :
    t.mmap = s.mmap := by
  refine unmapLoop_invariant (P := fun s' => s'.mmap = s.mmap) (fun s' r hs' => ?_) rfl h
  rw [pageUnmap, writePage_mmap, hs']

theorem getPage_mmap (kmalloc : ℕ → ℕ) (s : Space) (virt : ℕ) (make : Bool) :
    (getPage kmalloc s virt make).2.mmap = s.mmap := by
  simp only [getPage]
  split
  · rfl
  · split_ifs <;> rfl

theorem pageMap_mmap {r : PageRef} {kernel rw : Bool}
    (h : pageMap s r kernel rw = some t) : t.mmap = s.mmap := by
  unfold pageMap at h
  split_ifs at h
  · rw [← Option.some.inj h]
  · split at h
    · rw [← Option.some.inj h, writePage_mmap]
    · cases h

theorem mapLoop_mmap (h : mapLoop kmalloc s i stop fuel = some t) : t.mmap = s.mmap := by
  refine mapLoop_invariant (P := fun s' => s'.mmap = s.mmap) (fun s' virt hs' => ?_)
    (fun s' r t' hs' hmap => ?_) rfl h
  · rw [getPage_mmap, hs']
  · rw [pageMap_mmap hmap, hs']

theorem doMunmap_mmap (h : doMunmap s addr len = some t) :
    t.mmap = unmapAreas s.mmap addr len := by
  unfold doMunmap at h
  unfold unmapAreas
  simp only at h
  split_ifs at h ⊢ with hz hany
  · rw [← Option.some.inj h]
  · rw [unmapLoop_mmap h]
  · rw [← Option.some.inj h, eq_comm, List.filter_eq_self]
    intro a ha
    rw [List.any_eq_true] at hany
    by_contra hov
    exact hany ⟨a, ha, by simpa using hov⟩

theorem doMmap_mmap
    (h : doMmap kmalloc s addr len = some t) : t.mmap = mapAreas s.mmap addr len := by
  unfold doMmap at h
  unfold mapAreas
  simp only at h
  split_ifs at h ⊢ with hz
  · rw [← Option.some.inj h]
  · split at h
    · cases h
    · rename_i s₁ hunmap
      split at h
      · cases h
      · rename_i s₂ hmap
        rw [← Option.some.inj h, mapLoop_mmap hmap, doMunmap_mmap hunmap]

end Bingos.Mmap
