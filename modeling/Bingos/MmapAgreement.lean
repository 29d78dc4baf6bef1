import Bingos.MmapAreas
import Bingos.MmapFrames

set_option autoImplicit false

/-! Pages with a frame against the areas of the list: what the two loops of
`do_mmap` and `do_munmap` leave mapped outside of every area. -/
namespace Bingos.Mmap
open MachineWords StepRuns

def insideArea (areas : List VmArea) (v : ℕ) : Bool :=
  areas.any fun a => a.vmStart ≤ pageSize * v && pageSize * (v + 1) ≤ a.vmEnd

def dropped (areas : List VmArea) (addr len : ℕ) : List VmArea :=
  areas.filter (overlaps addr (add32 addr len))

/-- The areas after a history of calls, and the pages that have a frame without
lying inside an area. -/
structure Account where
  areas : List VmArea
  stray : ℕ → Bool

/-- Pages of a dropped area outside the range keep their frames, and `do_mmap`
maps the page behind its range; such pages are stray until they are covered
again or unmapped. -/
def account (x : Account) : Call → Account
  | .mmap addr len =>
    if pageAlign len = 0 then x
    else ⟨mapAreas x.areas addr len, fun v =>
      !decide (InRange (addr / pageSize) (pages len) v) &&
          (x.stray v || insideArea (dropped x.areas addr (pageAlign len)) v) ||
        v == addr / pageSize + pages len &&
          !insideArea (unmapAreas x.areas addr (pageAlign len)) v⟩
  | .munmap addr len =>
    if pageAlign len = 0 ∨ x.areas.any (overlaps addr (add32 addr len)) = false then x
    else ⟨unmapAreas x.areas addr len, fun v =>
      !decide (InRange (addr / pageSize) (pages len) v) &&
        (x.stray v || insideArea (dropped x.areas addr len) v)⟩

def history (cs : List Call) : Account := cs.foldl account ⟨[], fun _ => false⟩

variable {x : Account} {areas : List VmArea} {s : Space} {addr len lo v : ℕ}

theorem stray_mmap (hz : pageAlign len ≠ 0) (v : ℕ) :
    (account x (.mmap addr len)).stray v = true ↔
      (¬ InRange (addr / pageSize) (pages len) v ∧
          (x.stray v = true ∨ insideArea (dropped x.areas addr (pageAlign len)) v = true)) ∨
        v = addr / pageSize + pages len ∧
          insideArea (unmapAreas x.areas addr (pageAlign len)) v = false := by
  simp only [account, if_neg hz, Bool.or_eq_true, Bool.and_eq_true, Bool.not_eq_true',
    decide_eq_false_iff_not, beq_iff_eq]

theorem stray_munmap (hz : pageAlign len ≠ 0)
    (hany : x.areas.any (overlaps addr (add32 addr len)) = true) (v : ℕ) :
    (account x (.munmap addr len)).stray v = true ↔
      ¬ InRange (addr / pageSize) (pages len) v ∧
        (x.stray v = true ∨ insideArea (dropped x.areas addr len) v = true) := by
  have hsome : ¬ (pageAlign len = 0 ∨ x.areas.any (overlaps addr (add32 addr len)) = false) := by
    rw [hany]
    simpa using hz
  simp only [account, if_neg hsome, Bool.or_eq_true, Bool.and_eq_true, Bool.not_eq_true',
    decide_eq_false_iff_not]

def UserPage (lo v : ℕ) : Prop := lo ≤ v ∧ v < kheapStart / pageSize

structure Accounts (lo : ℕ) (s : Space) (x : Account) : Prop where
  areas : s.mmap = x.areas
  separate : Separate x.areas
  mapped : ∀ v, UserPage lo v → (frameOf s v ≠ 0 ↔ insideArea x.areas v = true ∨ x.stray v = true)
  apart : ∀ v, x.stray v = true → insideArea x.areas v = false

theorem inside_split (hlen : pageAlign len ≠ 0) (v : ℕ) :
    insideArea areas v = true ↔ insideArea (unmapAreas areas addr len) v = true ∨
      insideArea (dropped areas addr len) v = true := by
  simp only [insideArea, unmapAreas, dropped, if_neg hlen, List.any_eq_true, List.mem_filter]
  constructor
  · rintro ⟨a, ha, hin⟩
    cases hov : overlaps addr (add32 addr len) a with
    | false => exact Or.inl ⟨a, ⟨ha, by rw [hov]; rfl⟩, hin⟩
    | true => exact Or.inr ⟨a, ⟨ha, hov⟩, hin⟩
  · rintro (⟨a, ⟨ha, -⟩, hin⟩ | ⟨a, ⟨ha, -⟩, hin⟩) <;> exact ⟨a, ha, hin⟩

theorem inside_insertVm (areas : List VmArea) (a : VmArea) (v : ℕ) :
    insideArea (insertVm areas a) v = true ↔
      (a.vmStart ≤ pageSize * v ∧ pageSize * (v + 1) ≤ a.vmEnd) ∨ insideArea areas v = true := by
  unfold insideArea
  rw [(insertVm_perm areas a).any_eq, List.any_cons, Bool.or_eq_true, Bool.and_eq_true,
    decide_eq_true_eq, decide_eq_true_eq]

theorem Separate.eq_of_inside (h : Separate areas) {a b : VmArea} (ha : a ∈ areas) (hb : b ∈ areas)
    {x : ℕ} (hxa : a.vmStart ≤ x ∧ x < a.vmEnd) (hxb : b.vmStart ≤ x ∧ x < b.vmEnd) : a = b :=
  h.eq_of_meet ha hb (by omega) (by omega)

theorem inside_iff : insideArea areas v = true ↔
    ∃ a ∈ areas, a.vmStart ≤ pageSize * v ∧ pageSize * (v + 1) ≤ a.vmEnd := by
  simp only [insideArea, List.any_eq_true, Bool.and_eq_true, decide_eq_true_eq]

theorem Separate.dropped_apart (h : Separate areas)
    (hlen : pageAlign len ≠ 0) (hv : insideArea (dropped areas addr len) v = true) :
    insideArea (unmapAreas areas addr len) v = false := by
  obtain ⟨a, ha, hsa, hea⟩ := inside_iff.mp hv
  obtain ⟨ha, hova⟩ := List.mem_filter.mp ha
  by_contra hne
  obtain ⟨b, hb, hsb, heb⟩ := inside_iff.mp (Bool.not_eq_false _ ▸ hne)
  rw [unmapAreas, if_neg hlen] at hb
  obtain ⟨hb, hovb⟩ := List.mem_filter.mp hb
  unfold pageSize at *
  have hab := h.eq_of_inside (x := 4096 * v) ha hb ⟨hsa, by omega⟩ ⟨hsb, by omega⟩
  rw [hab] at hova
  rw [hova] at hovb
  cases hovb

theorem UserRange.inSpace (h : UserRange addr len) : InSpace addr len := by
  have hin := h.inside
  have hal := h.aligned
  unfold kheapStart at hin
  unfold pageSize at hal
  unfold InSpace
  omega

theorem UserRange.kept_out (hr : UserRange addr len)
    (hlen : pageAlign len ≠ 0) (hv : insideArea (unmapAreas areas addr len) v = true) :
    ¬ InRange (addr / pageSize) (pages len) v := by
  obtain ⟨a, ha, hs, he⟩ := inside_iff.mp hv
  have hapart := unmapAreas_apart hlen a ha
  have halign := hr.inSpace.pageAlign_eq
  have hal := hr.aligned
  have hin := hr.inside
  unfold kheapStart at hin
  rw [add32_of_lt (by omega)] at hapart
  unfold InRange pages
  rw [halign]
  unfold pageSize at *
  omega

theorem UserRange.inside_new (hr : UserRange addr len) (v : ℕ) :
    (addr ≤ pageSize * v ∧ pageSize * (v + 1) ≤ add32 addr (pageAlign len)) ↔
      InRange (addr / pageSize) (pages len) v := by
  have haddr := hr.addr_eq
  rw [hr.add_pageAlign]
  unfold InRange
  unfold pageSize at *
  omega

theorem accounts_munmap {t : Space} (h : Accounts lo s x)
    (hr : UserRange addr len) (ht : Munmapped s addr len t) (hexec : doMunmap s addr len = some t) :
    Accounts lo t (account x (.munmap addr len)) := by
  have hmmap := doMunmap_mmap hexec
  have hframe := ht.frame
  rw [h.areas] at hmmap hframe
  simp only [account]
  split_ifs with hnone
  · have hareas : unmapAreas x.areas addr len = x.areas := by
      rcases hnone with hz | hno
      · rw [unmapAreas, if_pos hz]
      · rw [unmapAreas]
        split_ifs
        · rfl
        · refine List.filter_eq_self.mpr fun a ha => ?_
          rw [List.any_eq_false] at hno
          simpa using hno a ha
    refine ⟨hmmap.trans hareas, h.separate, fun v hv => ?_, h.apart⟩
    rw [hframe v, if_neg]
    · exact h.mapped v hv
    · rintro ⟨hany, hin⟩
      rcases hnone with hz | hno
      · rw [pages, hz, Nat.zero_div] at hin
        unfold InRange at hin
        omega
      · rw [hno] at hany
        cases hany
  · obtain ⟨hz, hany⟩ := not_or.mp hnone
    rw [Bool.not_eq_false] at hany
    have hsplit : ∀ v, insideArea x.areas v = true ↔
        insideArea (unmapAreas x.areas addr len) v = true ∨
          insideArea (dropped x.areas addr len) v = true := inside_split hz
    refine ⟨hmmap, h.separate.unmap addr len, fun v hv => ?_, fun v hv => ?_⟩
    · rw [hframe v]
      simp only [hany, true_and, Bool.and_eq_true, Bool.or_eq_true, Bool.not_eq_true',
        decide_eq_false_iff_not]
      by_cases hin : InRange (addr / pageSize) (pages len) v
      · rw [if_pos hin]
        refine iff_of_false (fun h => h rfl) fun h => ?_
        exact h.elim (fun hkept => hr.kept_out hz hkept hin) fun h => h.1 hin
      · rw [if_neg hin, h.mapped v hv, hsplit v]
        simp only [hin, not_false_eq_true, true_and]
        rw [or_right_comm, or_assoc]
    · simp only [Bool.and_eq_true, Bool.or_eq_true] at hv
      rcases hv.2 with hstray | hdrop
      · have hnot := h.apart v hstray
        rw [← Bool.not_eq_true, hsplit v] at hnot
        rw [← Bool.not_eq_true]
        exact fun hkept => hnot (Or.inl hkept)
      · exact h.separate.dropped_apart hz hdrop

theorem accounts_mmap {t : Space} (h : Accounts lo s x) {kmalloc : ℕ → ℕ} (hr : UserRange addr len)
    (ht : Mmapped s kmalloc addr len t) (hexec : doMmap kmalloc s addr len = some t) :
    Accounts lo t (account x (.mmap addr len)) := by
  have hmmap := doMmap_mmap hexec
  rw [h.areas] at hmmap
  simp only [account]
  split_ifs with hz
  · have hsame : t = s := by
      rw [doMmap, if_pos hz] at hexec
      exact (Option.some.inj hexec).symm
    rw [hsame]
    exact h
  · obtain ⟨hr', halign⟩ := hr.align
    have hz' : pageAlign (pageAlign len) ≠ 0 := by rwa [halign]
    have hpages : pages (pageAlign len) = pages len := by rw [pages, halign, pages]
    have hsplit : ∀ v, insideArea x.areas v = true ↔
        insideArea (unmapAreas x.areas addr (pageAlign len)) v = true ∨
          insideArea (dropped x.areas addr (pageAlign len)) v = true := inside_split hz'
    have hinside : ∀ v, insideArea (mapAreas x.areas addr len) v = true ↔
        InRange (addr / pageSize) (pages len) v ∨
          insideArea (unmapAreas x.areas addr (pageAlign len)) v = true := by
      intro v
      rw [mapAreas, if_neg hz, inside_insertVm, hr.inside_new]
    refine ⟨hmmap, h.separate.map hr.inSpace, fun v hv => ?_, fun v hv => ?_⟩
    · rw [hinside]
      simp only [Bool.or_eq_true, Bool.and_eq_true, Bool.not_eq_true', decide_eq_false_iff_not,
        beq_iff_eq]
      by_cases hin : InRange (addr / pageSize) (pages len) v
      · have hgiven := ht.given hz v ⟨hin.1, by unfold InRange at hin; omega⟩
        exact iff_of_true hgiven (Or.inl (Or.inl hin))
      · by_cases hlast : v = addr / pageSize + pages len
        · refine iff_of_true (ht.given hz v ⟨by omega, by omega⟩) ?_
          cases hkept : insideArea (unmapAreas x.areas addr (pageAlign len)) v with
          | false => exact Or.inr (Or.inr ⟨hlast, rfl⟩)
          | true => exact Or.inl (Or.inr rfl)
        · rw [ht.kept v hin fun he => absurd he hlast, h.mapped v hv, hsplit v]
          simp only [hin, hlast, false_or, not_false_eq_true, true_and, false_and, or_false]
          rw [or_right_comm, or_assoc]
    · rw [← Bool.not_eq_true, hinside]
      simp only [Bool.or_eq_true, Bool.and_eq_true, Bool.not_eq_true', decide_eq_false_iff_not,
        beq_iff_eq] at hv
      rcases hv with ⟨hout, hstray | hdrop⟩ | ⟨rfl, hkept⟩
      · have hnot := h.apart v hstray
        rw [← Bool.not_eq_true, hsplit v] at hnot
        exact fun hin => hin.elim hout fun hkept => hnot (Or.inl hkept)
      · have hnot := h.separate.dropped_apart hz' hdrop
        rw [← Bool.not_eq_true] at hnot
        exact fun hin => hin.elim hout hnot
      · rw [← Bool.not_eq_true] at hkept
        refine fun hin => hin.elim (fun hin => ?_) hkept
        unfold InRange at hin
        omega

theorem run_accounts {init : Space} {cs : List Call} (h0 : Good init)
    (hmmap : init.mmap = []) (hpages : ∀ v, UserPage lo v → frameOf init v = 0)
    (h : Reach (Guarded Respects Step) init cs s) : Accounts lo s (history cs) := by
  refine h.invariant (fun cs s => Accounts lo s (history cs)) ?_ ?_
  · exact ⟨hmmap, .nil, fun v hv => by simp [hpages v hv, history, insideArea], nofun⟩
  · rintro cs s c t hpast hs ⟨hc, hr, kmalloc, hk, hexec⟩
    have hgood := run_good h0 hpast
    rw [history, List.foldl_append, List.foldl_cons, List.foldl_nil]
    cases c with
    | mmap addr len =>
      obtain ⟨t', hexec', ht⟩ := doMmap_spec hgood hk hr hc.1 hc.2
      obtain rfl := Option.some.inj (hexec'.symm.trans hexec)
      exact accounts_mmap hs hr ht hexec'
    | munmap addr len =>
      obtain ⟨t', hexec', ht⟩ := doMunmap_spec hgood hr hc
      obtain rfl := Option.some.inj (hexec'.symm.trans hexec)
      exact accounts_munmap hs hr ht hexec'

/-- After calls that respect the mapped ranges, the user pages with a frame are
those inside an area exactly if the history leaves no stray page. -/
theorem pages_agree_iff {lo : ℕ} {init s : Space} {cs : List Call} (h0 : Good init)
    (hmmap : init.mmap = []) (hpages : ∀ v, UserPage lo v → frameOf init v = 0)
    (h : Reach (Guarded Respects Step) init cs s) :
    (∀ v, UserPage lo v → (frameOf s v ≠ 0 ↔ insideArea s.mmap v = true)) ↔
      ∀ v, UserPage lo v → (history cs).stray v = false := by
  have hs := run_accounts h0 hmmap hpages h
  rw [hs.areas]
  constructor
  · intro hagree v hv
    by_contra hstray
    rw [Bool.not_eq_false] at hstray
    have hin := (hagree v hv).mp ((hs.mapped v hv).mpr (Or.inr hstray))
    rw [hs.apart v hstray] at hin
    cases hin
  · intro hnone v hv
    rw [hs.mapped v hv, hnone v hv]
    simp

/-- Two adjoining pages are mapped, and the second is unmapped with the page
behind it: the first remains, inside its area. -/
theorem pages_agree_iff_adjoining :
    ∃ s, Reach (Guarded Respects Step) booted
        [.mmap 0x20000000 0x1000, .mmap 0x20001000 0x1000, .munmap 0x20001000 0x2000] s ∧
      ∀ v, UserPage 0 v → (frameOf s v ≠ 0 ↔ insideArea s.mmap v = true) := by
  have hr₁ : UserRange 0x20000000 0x1000 := ⟨by decide, by decide⟩
  have hr₂ : UserRange 0x20001000 0x1000 := ⟨by decide, by decide⟩
  have hr₃ : UserRange 0x20001000 0x2000 := ⟨by decide, by decide⟩
  obtain ⟨s₁, hexec₁, hs₁⟩ := doMmap_spec booted_good booted_fresh hr₁ booted_respects.1
    booted_respects.2
  have hareas₁ : s₁.mmap = [⟨0x20000000, 0x20001000⟩] := doMmap_mmap hexec₁
  have hfree₁ : 2 ≤ (freeFrames s₁.frames).card := by
    have heval : (doMmap id booted 0x20000000 0x1000).map
        (fun s => decide (2 ≤ (freeFrames s.frames).card)) = some true := by decide +kernel
    rw [hexec₁, Option.map_some] at heval
    exact of_decide_eq_true (Option.some.inj heval)
  have hc₂ : Respects s₁ (.mmap 0x20001000 0x1000) := by
    refine ⟨fun hany => ?_, (lacking_le_length s₁ _ _).trans hfree₁⟩
    rw [hareas₁] at hany
    exact absurd hany (by decide)
  obtain ⟨s₂, hexec₂, hs₂⟩ := doMmap_spec hs₁.good hs₁.fresh hr₂ hc₂.1 hc₂.2
  have hc₃ : Respects s₂ (.munmap 0x20001000 0x2000) := fun _ u hu => hs₂.given (by decide) u hu
  obtain ⟨s₃, hexec₃, -⟩ := doMunmap_spec hs₂.good hr₃ hc₃
  have hrun : Reach (Guarded Respects Step) booted
      [.mmap 0x20000000 0x1000, .mmap 0x20001000 0x1000, .munmap 0x20001000 0x2000] s₃ :=
    .next (.next (.next .start ⟨booted_respects, hr₁, id, booted_fresh, hexec₁⟩)
      ⟨hc₂, hr₂, id, hs₁.fresh, hexec₂⟩) ⟨hc₃, hr₃, id, hs₂.fresh, hexec₃⟩
  refine ⟨s₃, hrun, (pages_agree_iff booted_good rfl (fun _ _ => rfl) hrun).mpr fun v _ => ?_⟩
  -- only the pages behind the two mapped ones were ever stray
  let x₁ := account ⟨[], fun _ => false⟩ (.mmap 0x20000000 0x1000)
  let x₂ := account x₁ (.mmap 0x20001000 0x1000)
  have hstray₁ : x₁.stray v = true → v = 0x20001 := by
    rw [stray_mmap (by decide)]
    rintro (⟨-, h | h⟩ | ⟨h, -⟩)
    · cases h
    · cases h
    · exact h
  have hstray₂ : x₂.stray v = true → v = 0x20001 ∨ v = 0x20002 := by
    rw [stray_mmap (by decide)]
    rintro (⟨-, h | h⟩ | ⟨h, -⟩)
    · exact Or.inl (hstray₁ h)
    · cases h
    · exact Or.inr h
  have hpast : history [.mmap 0x20000000 0x1000, .mmap 0x20001000 0x1000,
      .munmap 0x20001000 0x2000] = account x₂ (.munmap 0x20001000 0x2000) := rfl
  rw [← Bool.not_eq_true, hpast, stray_munmap (by decide) (by decide)]
  rintro ⟨hout, h | h⟩
  · rcases hstray₂ h with rfl | rfl
    · exact hout (by decide)
    · exact hout (by decide)
  · obtain ⟨a, ha, hs, he⟩ := inside_iff.mp h
    have hdrop : dropped x₂.areas 0x20001000 0x2000 = [⟨0x20001000, 0x20002000⟩] := by decide
    rw [hdrop] at ha
    obtain rfl := List.mem_singleton.mp ha
    simp only [pageSize] at hs he
    have hv : v = 0x20001 := by omega
    rw [hv] at hout
    exact hout (by decide)

/-- After mapping one page, the page behind it has a frame and is in no area. -/
theorem page_behind_range_mapped :
    ∃ s, Reach Step booted [.mmap 0x20000000 0x1000] s ∧ UserPage 0 0x20001 ∧
      frameOf s 0x20001 ≠ 0 ∧ insideArea s.mmap 0x20001 = false := by
  have hr : UserRange 0x20000000 0x1000 := ⟨by decide, by decide⟩
  obtain ⟨s, hexec, hs⟩ := doMmap_spec booted_good booted_fresh hr booted_respects.1
    booted_respects.2
  have hareas : s.mmap = [⟨0x20000000, 0x20001000⟩] := doMmap_mmap hexec
  refine ⟨s, .next .start ⟨hr, id, booted_fresh, hexec⟩, ⟨by decide, by decide⟩,
    hs.given (by decide) _ ⟨by decide, by decide⟩, ?_⟩
  rw [hareas]
  decide

end Bingos.Mmap
