import Bingos.FrameBatches
import Bingos.MmapPages

set_option autoImplicit false

/-! Frame conservation over runs of `do_mmap` and `do_munmap`. -/
namespace Bingos.Mmap
open MachineWords Frames StepRuns

def InRange (v n u : ℕ) : Prop := v ≤ u ∧ u < v + n

instance (v n u : ℕ) : Decidable (InRange v n u) := inferInstanceAs (Decidable (_ ∧ _))

structure Released (s : Space) (v n : ℕ) (t : Space) : Prop where
  shaped : Shaped t
  tabls : t.tabls = s.tabls
  tables : ∀ b, (t.tables b).isSome = (s.tables b).isSome
  frames : t.frames = ((List.range' v n).map (frameOf s)).foldl freeFrame s.frames
  frame : ∀ u, frameOf t u = if InRange v n u then 0 else frameOf s u
  backed : ∀ u, InRange v n u → ∃ b, s.tabls (u / 1024) = some b

structure Unmapped (s : Space) (v n : ℕ) (t : Space) : Prop extends Released s v n t where
  good : Good t
  free : (freeFrames t.frames).card = (freeFrames s.frames).card + n

variable {f u : ℕ}

theorem freeFrames_freeFrame {m : FrameMap} (hf : bitmapTest m f = true) (hlt : f < m.maxFrames) :
    (freeFrames (freeFrame m f)).card = (freeFrames m).card + 1 := by
  have hnot : f ∉ freeFrames m := by simp [freeFrames, hf]
  have heq : freeFrames (freeFrame m f) = insert f (freeFrames m) := by
    ext g
    simp only [freeFrames, Finset.mem_insert, Finset.mem_filter, Finset.mem_range,
      freeFrame_maxFrames, bitmapTest_freeFrame, Bool.and_eq_false_iff, decide_eq_false_iff_not,
      not_not]
    constructor
    · rintro ⟨hg, h | h⟩
      · exact Or.inr ⟨hg, h⟩
      · exact Or.inl h
    · rintro (rfl | ⟨hg, h⟩)
      · exact ⟨hlt, Or.inr rfl⟩
      · exact ⟨hg, Or.inl h⟩
  rw [heq, Finset.card_insert_of_notMem hnot]

variable {s t : Space} {fuel n v : ℕ} {kmalloc : ℕ → ℕ}

theorem unmapLoop_released (h : Shaped s) (hend : v + n ≤ kheapStart / pageSize)
    (hloop : unmapLoop s (pageSize * v) (pageSize * (v + n)) fuel = some t) : Released s v n t := by
  induction n generalizing s v fuel with
  | zero =>
    cases fuel with
    | zero => cases hloop
    | succ fuel =>
      rw [Nat.add_zero, unmapLoop_done le_rfl] at hloop
      obtain rfl := Option.some.inj hloop
      refine ⟨h, rfl, fun _ => rfl, rfl, fun u => ?_, fun u hu => ?_⟩
      · rw [if_neg (by unfold InRange; omega)]
      · unfold InRange at hu
        omega
  | succ n ih =>
    cases fuel with
    | zero => cases hloop
    | succ fuel =>
      obtain ⟨hge, -⟩ | ⟨-, b, hst, hloop⟩ := unmapLoop_cases hend hloop
      · omega
      · rw [show v + (n + 1) = v + 1 + n by omega] at hloop
        let s₁ := pageUnmap s ⟨b, v % 1024⟩
        have hframe₁ : ∀ u, frameOf s₁ u = if u = v then 0 else frameOf s u :=
          frameOf_writePage h hst _ _
        have htabls₁ : s₁.tabls = s.tabls := writePage_tabls _ _ _
        have htables₁ : ∀ b, (s₁.tables b).isSome = (s.tables b).isSome := writePage_isSome _ _ _
        have hframes₁ : s₁.frames = freeFrame s.frames (frameOf s v) := by
          simp only [s₁, pageUnmap, writePage_frames, frameOf_eq_addr hst]
        have ht := ih (h.of_tables htabls₁ htables₁) (by omega) hloop
        refine ⟨ht.shaped, ht.tabls.trans htabls₁, fun b => (ht.tables b).trans (htables₁ b), ?_,
          fun u => ?_, fun u hu => ?_⟩
        · have hrest : (List.range' (v + 1) n).map (frameOf s₁) =
              (List.range' (v + 1) n).map (frameOf s) := by
            refine List.map_congr_left fun u hu => ?_
            rw [List.mem_range'_1] at hu
            rw [hframe₁, if_neg (by omega)]
          rw [ht.frames, hframes₁, hrest, List.range'_succ, List.map_cons, List.foldl_cons]
        · rw [ht.frame, hframe₁]
          by_cases huv : u = v
          · rw [if_pos huv, ite_self, if_pos ⟨by omega, by omega⟩]
          · have hiff : InRange (v + 1) n u ↔ InRange v (n + 1) u := by
              unfold InRange
              omega
            simp only [if_neg huv, hiff]
        · unfold InRange at hu
          by_cases huv : u = v
          · exact ⟨b, by rw [huv, hst]⟩
          · rw [← htabls₁]
            exact ht.backed u ⟨by omega, by omega⟩

theorem Released.cleared (h : Released s v n t) (hs : bitmapTest s.frames f = true)
    (ht : bitmapTest t.frames f = false) : ∃ u, InRange v n u ∧ frameOf s u = f := by
  rw [h.frames, foldl_freeFrame_test, hs, Bool.true_and, decide_eq_false_iff_not, not_not] at ht
  obtain ⟨u, hu, he⟩ := List.mem_map.mp ht
  exact ⟨u, List.mem_range'_1.mp hu, he⟩

theorem unmapLoop_good (h : Good s) (hend : v + n ≤ kheapStart / pageSize)
    (hmapped : ∀ u, InRange v n u → frameOf s u ≠ 0) (hfuel : n < fuel) :
    ∃ t, unmapLoop s (pageSize * v) (pageSize * (v + n)) fuel = some t ∧ Good t ∧
      (freeFrames t.frames).card = (freeFrames s.frames).card + n := by
  induction n generalizing s v fuel with
  | zero =>
    obtain ⟨fuel, rfl⟩ := Nat.exists_eq_succ_of_ne_zero (by omega : fuel ≠ 0)
    exact ⟨s, unmapLoop_done le_rfl, h, rfl⟩
  | succ n ih =>
    obtain ⟨fuel, rfl⟩ := Nat.exists_eq_succ_of_ne_zero (by omega : fuel ≠ 0)
    have hv : v ≤ kheapStart / pageSize := by omega
    have hfv := hmapped v ⟨le_refl v, by omega⟩
    obtain ⟨r, hget, hgood, hframe, hframes⟩ := unmap_good h hv hfv
    have hrest : ∀ u, InRange (v + 1) n u → frameOf (pageUnmap s r) u ≠ 0 := by
      intro u hu
      unfold InRange at hu
      rw [hframe, if_neg (by omega)]
      exact hmapped u ⟨by omega, by omega⟩
    obtain ⟨t, hloop, ht, hfree⟩ := ih hgood (by omega) hrest (show n < fuel by omega)
    refine ⟨t, ?_, ht, ?_⟩
    · rw [unmapLoop_next (by omega) hend hget, show v + (n + 1) = v + 1 + n by omega]
      exact hloop
    · have hmanaged := h.managed v hv
      rw [hfree, hframes, freeFrames_freeFrame (h.frameOf_used hfv hmanaged) hmanaged]
      omega

theorem unmapLoop_spec (h : Good s) (hend : v + n ≤ kheapStart / pageSize)
    (hmapped : ∀ u, InRange v n u → frameOf s u ≠ 0) (hfuel : n < fuel) :
    ∃ t, unmapLoop s (pageSize * v) (pageSize * (v + n)) fuel = some t ∧ Unmapped s v n t := by
  obtain ⟨t, hloop, hgood, hfree⟩ := unmapLoop_good h hend hmapped hfuel
  exact ⟨t, hloop, unmapLoop_released h.toShaped hend hloop, hgood, hfree⟩

/-- The pages among `n` from `v` on that have no frame. -/
def lacking (s : Space) (v n : ℕ) : ℕ := (List.range' v n).countP (fun u => frameOf s u = 0)

theorem lacking_succ (s : Space) (v n : ℕ) :
    lacking s v (n + 1) = lacking s (v + 1) n + if frameOf s v = 0 then 1 else 0 := by
  simp only [lacking, List.range'_succ, List.countP_cons, decide_eq_true_eq]

theorem lacking_le_length (s : Space) (v n : ℕ) : lacking s v n ≤ n := by
  have := List.countP_le_length (l := List.range' v n) (p := fun u => frameOf s u = 0)
  simpa [lacking] using this

theorem lacking_eq_zero (h : ∀ u, InRange v n u → frameOf s u ≠ 0) :
    lacking s v n = 0 :=
  List.countP_eq_zero.mpr fun u hu => by simpa using h u (List.mem_range'_1.mp hu)

theorem lacking_eq_length (h : ∀ u, InRange v n u → frameOf s u = 0) :
    lacking s v n = n := by
  rw [lacking, List.countP_eq_length.mpr fun u hu => by simpa using h u (List.mem_range'_1.mp hu),
    List.length_range']

def bare (s : Space) (v n : ℕ) : Finset ℕ :=
  (Finset.Ico v (v + n)).filter fun u => frameOf s u = 0

theorem mem_bare : u ∈ bare s v n ↔ InRange v n u ∧ frameOf s u = 0 := by
  rw [bare, Finset.mem_filter, Finset.mem_Ico, InRange]

theorem card_bare (s : Space) (v n : ℕ) : (bare s v n).card = lacking s v n := by
  rw [lacking, List.countP_eq_length_filter,
    ← List.toFinset_card_of_nodup ((List.nodup_range' _).filter _)]
  congr 1
  ext u
  rw [mem_bare, List.mem_toFinset, List.mem_filter, List.mem_range'_1, decide_eq_true_eq, InRange]

theorem lacking_congr (h : ∀ u, InRange v n u → (frameOf t u = 0 ↔ frameOf s u = 0)) :
    lacking t v n = lacking s v n := by
  refine List.countP_congr ?_
  intro u hu
  rw [List.mem_range'_1] at hu
  simpa using h u hu

theorem Fresh.of_tables (h : Fresh s kmalloc)
    (htabls : t.tabls = s.tabls) (htables : ∀ b, (t.tables b).isSome = (s.tables b).isSome) :
    Fresh t kmalloc := by
  refine ⟨fun i hi => ?_, h.injective⟩
  rw [htabls] at hi
  have := htables (kmalloc i)
  rw [h.unused i hi] at this
  simpa using this

structure Mapped (s : Space) (kmalloc : ℕ → ℕ) (v n : ℕ) (t : Space) : Prop where
  good : Good t
  fresh : Fresh t kmalloc
  given : ∀ u, InRange v n u → frameOf t u ≠ 0
  kept : ∀ u, (InRange v n u → frameOf s u ≠ 0) → frameOf t u = frameOf s u
  used : ∀ f, bitmapTest s.frames f = true → bitmapTest t.frames f = true
  spent : (freeFrames s.frames).card = (freeFrames t.frames).card + lacking s v n

theorem Mapped.cons {s₁ : Space} (h₁ : Mapped s kmalloc v 1 s₁)
    (h : Mapped s₁ kmalloc (v + 1) n t) : Mapped s kmalloc v (n + 1) t := by
  refine ⟨h.good, h.fresh, ?_, ?_, fun f hf => h.used f (h₁.used f hf), ?_⟩
  · intro u hu
    unfold InRange at hu
    by_cases huv : u = v
    · have hfirst := h₁.given u ⟨by omega, by omega⟩
      rwa [h.kept u fun _ => hfirst]
    · exact h.given u ⟨by omega, by omega⟩
  · intro u hu
    have hfirst : frameOf s₁ u = frameOf s u :=
      h₁.kept u fun hin => hu ⟨hin.1, by unfold InRange at hin; omega⟩
    rw [← hfirst]
    refine h.kept u fun hin => ?_
    rw [hfirst]
    unfold InRange at hin
    exact hu ⟨by omega, by omega⟩
  · have hrest : lacking s₁ (v + 1) n = lacking s (v + 1) n := by
      refine lacking_congr fun u hu => ?_
      rw [h₁.kept u fun hin => by unfold InRange at hin hu; omega]
    have hone : lacking s v 1 = if frameOf s v = 0 then 1 else 0 := by
      rw [lacking_succ]
      simp [lacking]
    rw [lacking_succ, h₁.spent, h.spent, hrest, hone]
    omega

/-- One page of the loop of `do_mmap`. -/
structure MapStep (s : Space) (kmalloc : ℕ → ℕ) (v : ℕ) (t : Space) : Prop where
  before : Good s
  heap : Fresh s kmalloc
  page : v < 2 ^ 20
  room : frameOf s v = 0 → 0 < (freeFrames s.frames).card
  run : ∃ r s₁, getPage kmalloc s (pageSize * v) true = (some r, s₁) ∧
    pageMap s₁ r false true = some t
  mapped : Mapped s kmalloc v 1 t

theorem mapStep_spec (h : Good s) (hk : Fresh s kmalloc) (hv : v < 2 ^ 20)
    (hfree : lacking s v (n + 1) ≤ (freeFrames s.frames).card) :
    ∃ t, MapStep s kmalloc v t ∧ lacking t (v + 1) n ≤ (freeFrames t.frames).card := by
  obtain ⟨b, s₁, hget, hslot, hgood, hfresh, hframes, -, hframe⟩ := getPage_make h hk hv
  rw [lacking_succ] at hfree
  by_cases hf : frameOf s v = 0
  · rw [if_pos hf] at hfree
    have hpos : 0 < (freeFrames s.frames).card := by omega
    obtain ⟨s₂, f, hmap, hgood₂, hf0, hmem, herase, hframe₂, hkept, htabls, -, htables⟩ :=
      map_good hgood hslot ((hframe v).trans hf) (by rwa [hframes])
    refine ⟨s₂, ⟨h, hk, hv, fun _ => hpos, ⟨⟨b, v % 1024⟩, s₁, hget, hmap⟩,
      ⟨hgood₂, hfresh.of_tables htabls htables, ?_, ?_, ?_, ?_⟩⟩, ?_⟩
    · intro u hu
      unfold InRange at hu
      rwa [hframe₂, if_pos (by omega)]
    · intro u hu
      have hne : u ≠ v := by
        rintro rfl
        exact hu ⟨le_refl u, by omega⟩ hf
      rw [hframe₂, if_neg hne, hframe]
    · intro g hg
      exact hkept g (by rwa [hframes])
    · rw [herase, Finset.card_erase_of_mem hmem, hframes, lacking_succ, if_pos hf]
      simp only [lacking, List.range'_zero, List.countP_nil]
      omega
    · have hlack : lacking s₂ (v + 1) n = lacking s (v + 1) n := by
        refine lacking_congr (fun u hu => ?_)
        unfold InRange at hu
        rw [hframe₂, if_neg (by omega), hframe]
      rw [hlack, herase, Finset.card_erase_of_mem hmem, hframes]
      omega
  · rw [if_neg hf] at hfree
    have haddr : (readPage s₁ ⟨b, v % 1024⟩).addr ≠ 0 := by
      have hf₁ := hf
      rw [← hframe v] at hf₁
      simpa [frameOf, hslot] using hf₁
    refine ⟨s₁, ⟨h, hk, hv, fun h0 => absurd h0 hf,
      ⟨⟨b, v % 1024⟩, s₁, hget, by rw [pageMap, if_pos haddr]⟩,
      ⟨hgood, hfresh, ?_, fun u _ => hframe u, fun g hg => by rwa [hframes], ?_⟩⟩, ?_⟩
    · intro u hu
      unfold InRange at hu
      rwa [hframe, show u = v by omega]
    · rw [hframes, lacking_succ, if_neg hf]
      simp [lacking]
    · rw [lacking_congr (t := s₁) (s := s) (fun u _ => by rw [hframe]), hframes]
      omega

/-- The rule for the loop of `do_mmap`: what a page in front of the others carries on holds of the
whole range. -/
theorem mapLoop_rule {R : Space → ℕ → ℕ → Space → Prop} (hnil : ∀ s v, R s v 0 s)
    (hcons : ∀ {s s₁ t v n}, MapStep s kmalloc v s₁ → Mapped s₁ kmalloc (v + 1) n t →
      R s₁ (v + 1) n t → R s v (n + 1) t)
    (h : Good s) (hk : Fresh s kmalloc) {last : ℕ} (hlast : v + n = last + 1)
    (hend : last ≤ kheapStart / pageSize) (hfree : lacking s v n ≤ (freeFrames s.frames).card)
    (hfuel : n < fuel) :
    ∃ t, mapLoop kmalloc s (pageSize * v) (pageSize * last) fuel = some t ∧
      Mapped s kmalloc v n t ∧ R s v n t := by
  induction n generalizing s v fuel with
  | zero =>
    obtain ⟨fuel, rfl⟩ := Nat.exists_eq_succ_of_ne_zero (by omega : fuel ≠ 0)
    refine ⟨s, mapLoop_done (by omega), ⟨h, hk, ?_, fun _ _ => rfl, fun _ hf => hf,
      by simp [lacking]⟩, hnil s v⟩
    intro u hu
    unfold InRange at hu
    omega
  | succ n ih =>
    obtain ⟨fuel, rfl⟩ := Nat.exists_eq_succ_of_ne_zero (by omega : fuel ≠ 0)
    obtain ⟨s₁, hstep, hlack⟩ := mapStep_spec h hk (page_lt (by omega)) hfree
    obtain ⟨t, hloop, ht, hR⟩ :=
      ih hstep.mapped.good hstep.mapped.fresh (by omega) hlack (show n < fuel by omega)
    obtain ⟨r, s₂, hget, hmap⟩ := hstep.run
    refine ⟨t, ?_, hstep.mapped.cons ht, hcons hstep ht hR⟩
    rw [mapLoop_next (by omega) hend hget, hmap, Option.bind_some]
    exact hloop

theorem lacking_snoc (s : Space) (v n : ℕ) :
    lacking s v (n + 1) = lacking s v n + if frameOf s (v + n) = 0 then 1 else 0 := by
  simp [lacking, List.range'_concat, List.countP_append, List.countP_singleton]

theorem Unmapped.lacking_le (h : Unmapped s v n t)
    (hfree : lacking s v (n + 1) ≤ (freeFrames s.frames).card) :
    lacking t v (n + 1) ≤ (freeFrames t.frames).card := by
  have hn := lacking_le_length t v n
  have hlast : frameOf t (v + n) = frameOf s (v + n) := by
    rw [h.frame, if_neg (by unfold InRange; omega)]
  rw [lacking_snoc] at hfree ⊢
  rw [hlast, h.free]
  omega

theorem Unmapped.spent {t' : Space} (h : Unmapped s v n t)
    (hmapped : ∀ u, InRange v n u → frameOf s u ≠ 0) (ht : Mapped t kmalloc v (n + 1) t') :
    (freeFrames s.frames).card = (freeFrames t'.frames).card + lacking s v (n + 1) := by
  have hspent := ht.spent
  have hlast : frameOf t (v + n) = frameOf s (v + n) := by
    rw [h.frame, if_neg (by unfold InRange; omega)]
  have hbare : lacking t v n = n := lacking_eq_length fun u hu => by rw [h.frame, if_pos hu]
  rw [lacking_snoc, hbare, hlast, h.free] at hspent
  rw [lacking_snoc, lacking_eq_zero hmapped]
  omega

structure UserRange (addr len : ℕ) : Prop where
  aligned : addr % pageSize = 0
  inside : addr + len ≤ kheapStart

def pages (len : ℕ) : ℕ := pageAlign len / pageSize

theorem pageAlign_eq (len : ℕ) : pageAlign len = pageSize * pages len := by
  unfold pages pageAlign
  rw [Nat.mul_div_cancel _ (by decide), mul_comm]

theorem UserRange.end_le {addr len : ℕ} (h : UserRange addr len) :
    addr / pageSize + pages len ≤ kheapStart / pageSize := by
  have ha := h.aligned
  have hi := h.inside
  unfold pages pageAlign
  unfold kheapStart at *
  unfold pageSize at *
  rw [add32_of_lt (by omega)]
  omega

theorem UserRange.addr_eq {addr len : ℕ} (h : UserRange addr len) :
    addr = pageSize * (addr / pageSize) := by
  have ha := h.aligned
  unfold pageSize at *
  omega

theorem UserRange.add_pageAlign {addr len : ℕ} (h : UserRange addr len) :
    add32 addr (pageAlign len) = pageSize * (addr / pageSize + pages len) := by
  have he := h.end_le
  have ha := h.addr_eq
  rw [pageAlign_eq len]
  unfold kheapStart at he
  unfold pageSize at *
  rw [add32_of_lt (by omega)]
  omega

theorem UserRange.align {addr len : ℕ} (h : UserRange addr len) :
    UserRange addr (pageAlign len) ∧ pageAlign (pageAlign len) = pageAlign len := by
  have he := h.end_le
  have ha := h.addr_eq
  have hl := pageAlign_eq len
  unfold kheapStart at *
  generalize pages len = n at *
  refine ⟨⟨h.aligned, ?_⟩, ?_⟩
  · unfold kheapStart
    unfold pageSize at *
    omega
  · rw [hl, pageAlign]
    unfold pageSize at *
    rw [add32_of_lt (by omega)]
    omega

/-- Once an area of the process overlaps the range, every page of the range
has a frame. -/
def Covered (s : Space) (addr len : ℕ) : Prop :=
  s.mmap.any (overlaps addr (add32 addr len)) = true →
    ∀ u, InRange (addr / pageSize) (pages len) u → frameOf s u ≠ 0

def ClearsOnly (s : Space) (addr len : ℕ) (t : Space) : Prop :=
  ∀ f, bitmapTest s.frames f = true → bitmapTest t.frames f = false →
    f ≠ 0 ∧ ∃ u, InRange (addr / pageSize) (pages len) u ∧ frameOf s u = f

theorem good_mmap_iff (s : Space) (areas : List VmArea) :
    Good { s with mmap := areas } ↔ Good s := by
  constructor <;> intro h <;>
    exact h.of_readPage (fun _ => rfl) rfl (fun _ => rfl) ⟨h.backed, h.distinct⟩

theorem pages_lt_pageFuel {addr len : ℕ} (h : UserRange addr len) : pages len + 1 < pageFuel := by
  have he := h.end_le
  unfold kheapStart pageSize at he
  unfold pageFuel
  omega

/-- What `do_munmap` leaves behind: pages lose their frames only if some area
meets the range. -/
structure Munmapped (s : Space) (addr len : ℕ) (t : Space) : Prop where
  good : Good t
  clears : ClearsOnly s addr len t
  frame : ∀ u, frameOf t u = if s.mmap.any (overlaps addr (add32 addr len)) = true ∧
    InRange (addr / pageSize) (pages len) u then 0 else frameOf s u
  tabls : t.tabls = s.tabls
  tables : ∀ b, (t.tables b).isSome = (s.tables b).isSome
  enough : lacking s (addr / pageSize) (pages len + 1) ≤ (freeFrames s.frames).card →
    lacking t (addr / pageSize) (pages len + 1) ≤ (freeFrames t.frames).card

theorem Munmapped.refl (h : Good s) {addr len : ℕ}
    (hno : s.mmap.any (overlaps addr (add32 addr len)) = true → pages len = 0) :
    Munmapped s addr len s := by
  refine ⟨h, ?_, ?_, rfl, fun _ => rfl, id⟩
  · intro f hs ht
    rw [hs] at ht
    cases ht
  · intro u
    rw [if_neg]
    rintro ⟨hany, hu⟩
    have := hno hany
    unfold InRange at hu
    omega

theorem doMunmap_spec (h : Good s) {addr len : ℕ} (hr : UserRange addr len)
    (hc : Covered s addr len) :
    ∃ t, doMunmap s addr len = some t ∧ Munmapped s addr len t := by
  by_cases hz : pageAlign len = 0
  · refine ⟨s, by rw [doMunmap, if_pos hz], .refl h fun _ => ?_⟩
    rw [pages, hz, Nat.zero_div]
  · by_cases hany : s.mmap.any (overlaps addr (add32 addr len)) = true
    · let s₀ : Space :=
        { s with mmap := s.mmap.filter (fun a => !overlaps addr (add32 addr len) a) }
      obtain ⟨t, hloop, ht⟩ := unmapLoop_spec (s := s₀) ((good_mmap_iff s _).mpr h) hr.end_le
        (hc hany) (show pages len < pageFuel from (Nat.lt_succ_self _).trans (pages_lt_pageFuel hr))
      have hclear : ClearsOnly s addr len t := by
        intro f hs hf
        refine ⟨?_, ht.cleared hs hf⟩
        rintro rfl
        rw [ht.good.zero] at hf
        cases hf
      have hframe : ∀ u, frameOf t u = if s.mmap.any (overlaps addr (add32 addr len)) = true ∧
          InRange (addr / pageSize) (pages len) u then 0 else frameOf s u := by
        intro u
        rw [ht.frame u]
        simp only [hany, true_and]
        rfl
      refine ⟨t, ?_, ht.good, hclear, hframe, ht.tabls, ht.tables, ht.lacking_le⟩
      rw [doMunmap, if_neg hz, if_pos hany, hr.add_pageAlign]
      rw [← hr.addr_eq] at hloop
      exact hloop
    · exact ⟨s, by rw [doMunmap, if_neg hz, if_neg hany], .refl h fun h => absurd h hany⟩

/-- What `do_mmap` leaves behind: the pages of the range and the one behind it
have frames, and the other pages and their frames are as before. -/
structure Mmapped (s : Space) (kmalloc : ℕ → ℕ) (addr len : ℕ) (t : Space) : Prop where
  good : Good t
  fresh : Fresh t kmalloc
  clears : ClearsOnly s addr len t
  given : pageAlign len ≠ 0 → ∀ u, InRange (addr / pageSize) (pages len + 1) u → frameOf t u ≠ 0
  kept : ∀ u, ¬ InRange (addr / pageSize) (pages len) u →
    (u = addr / pageSize + pages len → pageAlign len ≠ 0 → frameOf s u ≠ 0) →
    frameOf t u = frameOf s u
  spent : pageAlign len ≠ 0 → s.mmap.any (overlaps addr (add32 addr (pageAlign len))) = false →
    (freeFrames s.frames).card =
      (freeFrames t.frames).card + lacking s (addr / pageSize) (pages len + 1)

theorem doMmap_spec (h : Good s) (hk : Fresh s kmalloc)
    {addr len : ℕ} (hr : UserRange addr len) (hc : Covered s addr (pageAlign len))
    (hfree : lacking s (addr / pageSize) (pages len + 1) ≤ (freeFrames s.frames).card) :
    ∃ t, doMmap kmalloc s addr len = some t ∧ Mmapped s kmalloc addr len t := by
  by_cases hz : pageAlign len = 0
  · refine ⟨s, by rw [doMmap, if_pos hz], h, hk, ?_, fun hnz => absurd hz hnz, fun _ _ _ => rfl,
      fun hnz => absurd hz hnz⟩
    intro f hs ht
    rw [hs] at ht
    cases ht
  · obtain ⟨hr', halign⟩ := hr.align
    have hpages : pages (pageAlign len) = pages len := by rw [pages, halign, pages]
    obtain ⟨s₁, hunmap, hs₁⟩ := doMunmap_spec h hr' hc
    have hlack := hs₁.enough
    have honly := hs₁.clears
    have hframe₁ := hs₁.frame
    rw [ClearsOnly, hpages] at honly
    rw [hpages] at hlack hframe₁
    obtain ⟨t, hloop, ht, -⟩ := mapLoop_rule (R := fun _ _ _ _ => True) (fun _ _ => trivial)
      (fun _ _ _ => trivial) hs₁.good (hk.of_tables hs₁.tabls hs₁.tables)
      (show addr / pageSize + (pages len + 1) = addr / pageSize + pages len + 1 by omega) hr.end_le
      (hlack hfree) (pages_lt_pageFuel hr)
    rw [← hr.addr_eq] at hloop
    refine ⟨{ t with mmap := insertVm t.mmap ⟨addr, add32 addr (pageAlign len)⟩ }, ?_,
      (good_mmap_iff t _).mpr ht.good, ⟨ht.fresh.unused, ht.fresh.injective⟩, ?_,
      fun _ => ht.given, ?_, ?_⟩
    · rw [doMmap, if_neg hz]
      simp only [hunmap, hr.add_pageAlign, hloop]
    · intro f hs hf
      have hs₁ : bitmapTest s₁.frames f = false := by
        by_contra hne
        rw [Bool.not_eq_false] at hne
        rw [show bitmapTest t.frames f = true from ht.used f hne] at hf
        cases hf
      exact honly f hs hs₁
    · intro u hu hlast
      have hsame : frameOf s₁ u = frameOf s u := by rw [hframe₁, if_neg fun h => hu h.2]
      change frameOf t u = frameOf s u
      rw [← hsame]
      refine ht.kept u fun hin => ?_
      rw [hsame]
      unfold InRange at hin hu
      exact hlast (by omega) hz
    · intro _ hno
      have hsame : s₁ = s := by
        rw [doMunmap, if_neg (by rwa [halign]), hno] at hunmap
        exact (Option.some.inj hunmap).symm
      rw [← hsame]
      exact ht.spent

inductive Call where
  | mmap (addr len : ℕ)
  | munmap (addr len : ℕ)

def Call.addr : Call → ℕ
  | mmap addr _ => addr
  | munmap addr _ => addr

def Call.len : Call → ℕ
  | mmap _ len => len
  | munmap _ len => len

def exec (kmalloc : ℕ → ℕ) (s : Space) : Call → Option Space
  | .mmap addr len => doMmap kmalloc s addr len
  | .munmap addr len => doMunmap s addr len

/-- A call that returns, in user space, with page tables from a kernel heap
that hands out unused blocks. -/
def Step (s : Space) (c : Call) (t : Space) : Prop :=
  UserRange c.addr c.len ∧ ∃ kmalloc, Fresh s kmalloc ∧ exec kmalloc s c = some t

/-- What the caller has to respect: a range that overlaps an area is fully
mapped, and there are frames for the pages to be mapped, which include the
page after the range. -/
def Respects (s : Space) : Call → Prop
  | .mmap addr len => Covered s addr (pageAlign len) ∧
      lacking s (addr / pageSize) (pages len + 1) ≤ (freeFrames s.frames).card
  | .munmap addr len => Covered s addr len

variable {c : Call}

theorem exec_spec (h : Good s) (hk : Fresh s kmalloc)
    (hr : UserRange c.addr c.len) (hc : Respects s c) :
    ∃ t, exec kmalloc s c = some t ∧ Good t ∧ ClearsOnly s c.addr c.len t := by
  cases c with
  | mmap addr len =>
    obtain ⟨t, hexec, ht⟩ := doMmap_spec h hk hr hc.1 hc.2
    exact ⟨t, hexec, ht.good, ht.clears⟩
  | munmap addr len =>
    obtain ⟨t, hexec, ht⟩ := doMunmap_spec h hr hc
    exact ⟨t, hexec, ht.good, ht.clears⟩

theorem step_good (h : Good s) (hs : Guarded Respects Step s c t) :
    Good t ∧ ClearsOnly s c.addr c.len t := by
  obtain ⟨hc, hr, kmalloc, hk, hexec⟩ := hs
  obtain ⟨t', hexec', ht⟩ := exec_spec h hk hr hc
  rw [hexec] at hexec'
  obtain rfl := Option.some.inj hexec'
  exact ht

theorem run_good {init : Space} {cs : List Call} (h0 : Good init)
    (h : Reach (Guarded Respects Step) init cs s) : Good s :=
  h.invariant (fun _ s => Good s) h0 (fun _ _ _ _ _ hs hstep => (step_good hs hstep).1)

theorem unmapLoop_clear {i stop : ℕ} (hs : bitmapTest s.frames f = false)
    (h : unmapLoop s i stop fuel = some t) : bitmapTest t.frames f = false := by
  refine unmapLoop_invariant (P := fun s' => bitmapTest s'.frames f = false) (fun s' r hs' => ?_) hs h
  simp [pageUnmap, hs']

theorem unmapLoop_zero (h : Good s)
    (hend : v + n ≤ kheapStart / pageSize) (hu : InRange v n u) (hzero : frameOf s u = 0)
    (hloop : unmapLoop s (pageSize * v) (pageSize * (v + n)) fuel = some t) :
    bitmapTest t.frames 0 = false := by
  induction n generalizing s v fuel with
  | zero =>
    unfold InRange at hu
    omega
  | succ n ih =>
    cases fuel with
    | zero => cases hloop
    | succ fuel =>
      by_cases hf : frameOf s v = 0
      · obtain ⟨hge, -⟩ | ⟨-, b, hst, hloop⟩ := unmapLoop_cases hend hloop
        · omega
        · refine unmapLoop_clear ?_ hloop
          have haddr : (readPage s ⟨b, v % 1024⟩).addr = 0 := by simpa [frameOf, hst] using hf
          simp [pageUnmap, haddr]
      · obtain ⟨r, hget, hgood, hframe, -⟩ := unmap_good h (by omega) hf
        have huv : u ≠ v := by
          rintro rfl
          exact hf hzero
        unfold InRange at hu
        rw [unmapLoop_next (by omega) hend hget, show v + (n + 1) = v + 1 + n by omega] at hloop
        refine ih hgood (by omega) ⟨by omega, by omega⟩ ?_ hloop
        rw [hframe, if_neg huv, hzero]

/-- Along every run of calls that respect the mapped ranges, the used frames
are those of the page entries, one entry each; such calls return, and clear
the bits only of frames mapped in their range. A `do_munmap` that does not,
and returns, has cleared the bit of frame zero. -/
theorem frames_conserved {init s : Space} {cs : List Call} (h0 : Good init)
    (h : Reach (Guarded Respects Step) init cs s) :
    Accounted s ∧
    (∀ c kmalloc, UserRange c.addr c.len → Fresh s kmalloc → Respects s c →
      ∃ t, exec kmalloc s c = some t ∧ Accounted t ∧ ClearsOnly s c.addr c.len t) ∧
    ∀ addr len t, UserRange addr len → ¬ Covered s addr len → doMunmap s addr len = some t →
      bitmapTest t.frames 0 = false ∧ ¬ Accounted t := by
  have hs := run_good h0 h
  refine ⟨hs.toAccounted, ?_, ?_⟩
  · intro c kmalloc hr hk hc
    obtain ⟨t, hexec, ht, hclear⟩ := exec_spec hs hk hr hc
    exact ⟨t, hexec, ht.toAccounted, hclear⟩
  · intro addr len t hr hc hexec
    simp only [Covered, not_forall, not_not] at hc
    obtain ⟨hany, u, hu, hzero⟩ := hc
    have hz : pageAlign len ≠ 0 := by
      intro hz
      rw [pages, hz, Nat.zero_div] at hu
      unfold InRange at hu
      omega
    have hlost : bitmapTest t.frames 0 = false := by
      let areas := s.mmap.filter (fun a => !overlaps addr (add32 addr len) a)
      have hloop : unmapLoop { s with mmap := areas } (pageSize * (addr / pageSize))
          (pageSize * (addr / pageSize + pages len)) pageFuel = some t := by
        rw [doMunmap, if_neg hz, if_pos hany, hr.add_pageAlign] at hexec
        rw [← hr.addr_eq]
        exact hexec
      exact unmapLoop_zero ((good_mmap_iff s areas).mpr hs) hr.end_le hu hzero hloop
    refine ⟨hlost, fun ht => ?_⟩
    rw [ht.zero] at hlost
    cases hlost

def booted : Space :=
  ⟨⟨fun i => if i = 0 then 1 else 0, 1, 64⟩, fun _ => none, fun _ => none, []⟩

theorem booted_good : Good booted := by
  have hread : ∀ r, (readPage booted r).addr = 0 := fun _ => rfl
  have hnone : ∀ r f, ¬ Refers booted r f := fun r f h => h.2.2 (h.2.1.symm.trans (hread r))
  refine ⟨⟨by decide, ?_, fun f r _ _ h => absurd h (hnone r f)⟩,
    ⟨⟨nofun, nofun⟩, fun _ _ => Nat.zero_lt_succ 63, by decide⟩⟩
  intro f hf0 hlt
  have hclear : ∀ f < 64, f ≠ 0 → bitmapTest booted.frames f = false := by decide
  constructor
  · intro h
    rw [hclear f hlt hf0] at h
    cases h
  · rintro ⟨r, h⟩
    exact absurd h (hnone r f)

theorem booted_fresh : Fresh booted id := ⟨fun _ _ => rfl, Function.injective_id⟩

theorem booted_respects : Respects booted (.mmap 0x20000000 0x1000) := by
  refine ⟨nofun, ?_⟩
  have hcard : (freeFrames booted.frames).card = 63 := by decide +kernel
  rw [hcard]
  decide

theorem frames_conserved_once : ∃ s,
    Reach (Guarded Respects Step) booted [.mmap 0x20000000 0x1000] s ∧ Accounted s := by
  have hr : UserRange 0x20000000 0x1000 := ⟨by decide, by decide⟩
  obtain ⟨s, hexec, -⟩ := doMmap_spec booted_good booted_fresh hr booted_respects.1
    booted_respects.2
  have hrun : Reach (Guarded Respects Step) booted [.mmap 0x20000000 0x1000] s :=
    .next .start ⟨booted_respects, hr, id, booted_fresh, hexec⟩
  exact ⟨s, hrun, (frames_conserved booted_good hrun).1⟩

/-- Unmapping three pages of which two are mapped frees frame zero. -/
theorem partial_munmap_frees_frame_zero : ∃ s t,
    Reach Step booted [.mmap 0x20000000 0x1000] s ∧ Accounted s ∧
    Step s (.munmap 0x20000000 0x3000) t ∧ bitmapTest t.frames 0 = false ∧
    ¬ Accounted t ∧ ¬ ClearsOnly s 0x20000000 0x3000 t := by
  have hr : UserRange 0x20000000 0x1000 := ⟨by decide, by decide⟩
  obtain ⟨s, hexec, hmapped⟩ := doMmap_spec booted_good booted_fresh hr booted_respects.1
    booted_respects.2
  have hs := hmapped.good
  have hfresh := hmapped.fresh
  have heval : (doMmap id booted 0x20000000 0x1000).bind (fun s =>
      (doMunmap s 0x20000000 0x3000).map (fun t => bitmapTest t.frames 0)) = some false := rfl
  rw [hexec, Option.bind_some, Option.map_eq_some_iff] at heval
  obtain ⟨t, hunmap, hlost⟩ := heval
  refine ⟨s, t, .next .start ⟨hr, id, booted_fresh, hexec⟩, hs.toAccounted,
    ⟨⟨by decide, by decide⟩, id, hfresh, hunmap⟩, hlost, ?_, ?_⟩
  · intro ht
    rw [ht.zero] at hlost
    cases hlost
  · intro h
    exact (h 0 hs.zero hlost).1 rfl

end Bingos.Mmap
