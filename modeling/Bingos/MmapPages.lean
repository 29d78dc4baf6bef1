import Bingos.MmapModel

set_option autoImplicit false

/-! What mapping and unmapping one page does to the frame bitmap and to the
page entries that account for it. -/
namespace Bingos.Mmap
open MachineWords Frames

def kheapStart : ℕ := 0xc0000000

/-- The frame of page number `v` in the directory of the process, or zero. -/
def frameOf (s : Space) (v : ℕ) : ℕ :=
  match s.tabls (v / 1024) with
  | some t => (readPage s ⟨t, v % 1024⟩).addr
  | none => 0

def Refers (s : Space) (r : PageRef) (f : ℕ) : Prop :=
  r.index < 1024 ∧ (readPage s r).addr = f ∧ f ≠ 0

/-- Every managed frame marked used is the frame of exactly one page entry;
frame zero belongs to the identity map, whose entry reads as unmapped. -/
structure Accounted (s : Space) : Prop where
  zero : bitmapTest s.frames 0 = true
  used : ∀ f, f ≠ 0 → f < s.frames.maxFrames →
    (bitmapTest s.frames f = true ↔ ∃ r, Refers s r f)
  once : ∀ f r r', f < s.frames.maxFrames → Refers s r f → Refers s r' f → r = r'

/-- The slots of a directory hold different tables, all of them allocated. -/
structure Shaped (s : Space) : Prop where
  backed : ∀ i t, s.tabls i = some t → (s.tables t).isSome
  distinct : ∀ i j t, s.tabls i = some t → s.tabls j = some t → i = j

structure Formed (s : Space) : Prop extends Shaped s where
  managed : ∀ v, v ≤ kheapStart / pageSize → frameOf s v < s.frames.maxFrames
  addressable : s.frames.maxFrames ≤ 2 ^ 20

structure Good (s : Space) : Prop extends Accounted s, Formed s

/-- The kernel heap returns blocks that are not in use, a different one for
each table. -/
structure Fresh (s : Space) (kmalloc : ℕ → ℕ) : Prop where
  unused : ∀ i, s.tabls i = none → s.tables (kmalloc i) = none
  injective : Function.Injective kmalloc

def freeFrames (m : FrameMap) : Finset ℕ :=
  (Finset.range m.maxFrames).filter (fun f => bitmapTest m f = false)

theorem directoryIndex_eq {virt : ℕ} (hvirt : virt < 2 ^ 32) :
    pageDirectoryIndex virt = virt / 0x1000 / 1024 := by
  unfold pageDirectoryIndex
  omega

theorem tableIndex_eq (virt : ℕ) : pageTableIndex virt = virt / 0x1000 % 1024 := by
  unfold pageTableIndex
  omega

variable {r : PageRef} {s : Space} {t v i stop u : ℕ} {P : Space → Prop} {kmalloc : ℕ → ℕ}
  {m : FrameMap}

theorem directoryIndex_page (hv : v < 2 ^ 20) :
    pageDirectoryIndex (pageSize * v) = v / 1024 := by
  unfold pageDirectoryIndex pageSize
  omega

theorem tableIndex_page (v : ℕ) : pageTableIndex (pageSize * v) = v % 1024 := by
  unfold pageTableIndex pageSize
  omega

theorem add32_page (hv : v ≤ kheapStart / pageSize) :
    add32 (pageSize * v) pageSize = pageSize * (v + 1) := by
  unfold kheapStart pageSize at *
  rw [add32_of_lt (by omega)]
  omega

@[simp] theorem writePage_frames (s : Space) (r : PageRef) (p : Page) :
    (writePage s r p).frames = s.frames := by
  unfold writePage
  split <;> rfl

@[simp] theorem writePage_tabls (s : Space) (r : PageRef) (p : Page) :
    (writePage s r p).tabls = s.tabls := by
  unfold writePage
  split <;> rfl

@[simp] theorem writePage_mmap (s : Space) (r : PageRef) (p : Page) :
    (writePage s r p).mmap = s.mmap := by
  unfold writePage
  split <;> rfl

theorem writePage_isSome (s : Space) (r : PageRef) (p : Page) (t : ℕ) :
    ((writePage s r p).tables t).isSome = (s.tables t).isSome := by
  unfold writePage
  split
  · rename_i T hT
    by_cases ht : t = r.table
    · subst ht
      simp [hT]
    · simp [Function.update_of_ne ht]
  · rfl

theorem writePage_tables_of_ne (s : Space) (r : PageRef) (p : Page) (ht : t ≠ r.table) :
    (writePage s r p).tables t = s.tables t := by
  unfold writePage
  split
  · exact Function.update_of_ne ht _ _
  · rfl

theorem readPage_writePage (hr : (s.tables r.table).isSome) (p : Page)
    (q : PageRef) : readPage (writePage s r p) q = if q = r then p else readPage s q := by
  obtain ⟨T, hT⟩ := Option.isSome_iff_exists.mp hr
  simp only [writePage, hT, readPage]
  by_cases ht : q.table = r.table
  · rw [ht, Function.update_self, hT]
    by_cases hi : q.index = r.index
    · have hq : q = r := by
        cases q
        cases r
        simp_all
      rw [if_pos hq, hi]
      exact Function.update_self _ _ _
    · rw [if_neg (fun h => hi (congrArg PageRef.index h))]
      exact Function.update_of_ne hi _ _
  · rw [Function.update_of_ne ht, if_neg (fun h => ht (congrArg PageRef.table h))]

theorem pageMap_bare {f : ℕ} (kernel rw : Bool) (hr : (s.tables r.table).isSome)
    (hbare : (readPage s r).addr = 0) (halloc : allocFrame s.frames = some (f, m)) :
    ∃ t, pageMap s r kernel rw = some t ∧ t.frames = m ∧ t.tabls = s.tabls ∧
      (∀ q, readPage t q = if q = r then mappedPage kernel rw f else readPage s q) ∧
      (∀ b, b ≠ r.table → t.tables b = s.tables b) ∧
      ∀ b, (t.tables b).isSome = (s.tables b).isSome := by
  refine ⟨writePage { s with frames := m } r (mappedPage kernel rw f), ?_, writePage_frames _ _ _,
    writePage_tabls _ _ _, fun q => ?_, fun b hb => writePage_tables_of_ne _ _ _ hb,
    fun b => writePage_isSome _ _ _ b⟩
  · simp only [pageMap, hbare, halloc]
    rfl
  · rw [readPage_writePage (s := { s with frames := m }) hr]
    rfl

theorem Shaped.ref_injective (h : Shaped s) {t' : ℕ}
    (hu : s.tabls (u / 1024) = some t) (hv : s.tabls (v / 1024) = some t')
    (he : (⟨t, u % 1024⟩ : PageRef) = ⟨t', v % 1024⟩) : u = v := by
  obtain ⟨rfl, hi⟩ := PageRef.mk.inj he
  have hs := h.distinct _ _ _ hu hv
  omega

theorem frameOf_writePage (h : Shaped s) (hv : s.tabls (v / 1024) = some t)
    (m : FrameMap) (p : Page) (u : ℕ) :
    frameOf (writePage { s with frames := m } ⟨t, v % 1024⟩ p) u =
      if u = v then p.addr else frameOf s u := by
  have hb : (({ s with frames := m } : Space).tables t).isSome := h.backed _ _ hv
  simp only [frameOf, writePage_tabls]
  cases hu : s.tabls (u / 1024) with
  | none =>
    have hne : u ≠ v := by
      rintro rfl
      rw [hv] at hu
      cases hu
    rw [if_neg hne]
  | some t' =>
    change (readPage (writePage _ _ _) ⟨t', u % 1024⟩).addr =
      if u = v then p.addr else (readPage s ⟨t', u % 1024⟩).addr
    rw [readPage_writePage (r := ⟨t, v % 1024⟩) hb]
    by_cases huv : u = v
    · subst huv
      obtain rfl : t = t' := Option.some.inj (hv.symm.trans hu)
      simp
    · rw [if_neg huv, if_neg (fun he => huv (h.ref_injective hu hv he))]
      rfl

theorem refers_writePage (hr : (s.tables r.table).isSome) (m : FrameMap)
    (p : Page) (q : PageRef) (f : ℕ) :
    Refers (writePage { s with frames := m } r p) q f ↔
      q.index < 1024 ∧ (if q = r then p.addr else (readPage s q).addr) = f ∧ f ≠ 0 := by
  unfold Refers
  rw [readPage_writePage (s := { s with frames := m }) hr]
  have hread : readPage { s with frames := m } q = readPage s q := rfl
  rw [hread]
  split_ifs <;> rfl

theorem getPage_present (hv : v < 2 ^ 20)
    (ht : s.tabls (v / 1024) = some t) (kmalloc : ℕ → ℕ) (make : Bool) :
    getPage kmalloc s (pageSize * v) make = (some ⟨t, v % 1024⟩, s) := by
  simp only [getPage, directoryIndex_page hv, tableIndex_page, ht]

theorem page_lt (hv : v ≤ kheapStart / pageSize) : v < 2 ^ 20 := by
  unfold kheapStart pageSize at hv
  omega

section Loops
variable {t s₁ : Space} {last fuel : ℕ}

theorem unmapLoop_done (h : last ≤ v) :
    unmapLoop s (pageSize * v) (pageSize * last) (fuel + 1) = some s := by
  rw [unmapLoop, if_neg (Nat.not_lt.mpr (Nat.mul_le_mul_left pageSize h))]

theorem unmapLoop_next (h : v < last) (hend : last ≤ kheapStart / pageSize)
    (hget : (getPage id s (pageSize * v) false).1 = some r) :
    unmapLoop s (pageSize * v) (pageSize * last) (fuel + 1) =
      unmapLoop (pageUnmap s r) (pageSize * (v + 1)) (pageSize * last) fuel := by
  have hmore : pageSize * v < pageSize * last := Nat.mul_lt_mul_of_pos_left h (by decide)
  rw [unmapLoop, if_pos hmore, hget, add32_page (by omega)]

theorem unmapLoop_cases (hend : last ≤ kheapStart / pageSize)
    (hloop : unmapLoop s (pageSize * v) (pageSize * last) (fuel + 1) = some t) :
    last ≤ v ∧ t = s ∨
    v < last ∧ ∃ b, s.tabls (v / 1024) = some b ∧
      unmapLoop (pageUnmap s ⟨b, v % 1024⟩) (pageSize * (v + 1)) (pageSize * last) fuel = some t := by
  rcases Nat.lt_or_ge v last with hlt | hge
  · have hv := page_lt (show v ≤ kheapStart / pageSize by omega)
    refine Or.inr ⟨hlt, ?_⟩
    cases hst : s.tabls (v / 1024) with
    | none =>
      have hmore : pageSize * v < pageSize * last := Nat.mul_lt_mul_of_pos_left hlt (by decide)
      rw [unmapLoop, if_pos hmore] at hloop
      simp [getPage, directoryIndex_page hv, hst] at hloop
    | some b =>
      rw [unmapLoop_next hlt hend (congrArg Prod.fst (getPage_present hv hst id false))] at hloop
      exact ⟨b, rfl, hloop⟩
  · rw [unmapLoop_done hge] at hloop
    exact Or.inl ⟨hge, (Option.some.inj hloop).symm⟩

theorem unmapLoop_invariant (hstep : ∀ s r, P s → P (pageUnmap s r)) (h : P s)
    (hloop : unmapLoop s i stop fuel = some t) : P t := by
  induction fuel generalizing s i with
  | zero => cases hloop
  | succ fuel ih =>
    rw [unmapLoop] at hloop
    split_ifs at hloop
    · split at hloop
      · exact ih (hstep s _ h) hloop
      · cases hloop
    · rw [← Option.some.inj hloop]
      exact h

theorem mapLoop_done (h : last < v) :
    mapLoop kmalloc s (pageSize * v) (pageSize * last) (fuel + 1) = some s := by
  have hdone : pageSize * last < pageSize * v := Nat.mul_lt_mul_of_pos_left h (by decide)
  rw [mapLoop, if_neg (Nat.not_le.mpr hdone)]

theorem mapLoop_next (h : v ≤ last) (hend : last ≤ kheapStart / pageSize)
    (hget : getPage kmalloc s (pageSize * v) true = (some r, s₁)) :
    mapLoop kmalloc s (pageSize * v) (pageSize * last) (fuel + 1) =
      (pageMap s₁ r false true).bind fun s₂ =>
        mapLoop kmalloc s₂ (pageSize * (v + 1)) (pageSize * last) fuel := by
  rw [mapLoop, if_pos (Nat.mul_le_mul_left pageSize h), hget, add32_page (by omega)]
  dsimp only
  cases pageMap s₁ r false true with
  | none => rfl
  | some s₂ => rfl

theorem mapLoop_invariant (hget : ∀ s virt, P s → P (getPage kmalloc s virt true).2)
    (hmap : ∀ s r t, P s → pageMap s r false true = some t → P t) (h : P s)
    (hloop : mapLoop kmalloc s i stop fuel = some t) : P t := by
  induction fuel generalizing s i with
  | zero => cases hloop
  | succ fuel ih =>
    rw [mapLoop] at hloop
    split_ifs at hloop
    · have hs₁ := hget s i h
      split at hloop
      · rename_i r s₁ heq
        rw [heq] at hs₁
        split at hloop
        · rename_i s₂ hpage
          exact ih (hmap s₁ r s₂ hs₁ hpage) hloop
        · cases hloop
      · cases hloop
    · rw [← Option.some.inj hloop]
      exact h

end Loops

section Offsets
variable {last off : ℕ}

theorem getPage_offset (hoff : off < pageSize) (kmalloc : ℕ → ℕ) (s : Space) (v : ℕ) (make : Bool) :
    getPage kmalloc s (pageSize * v + off) make = getPage kmalloc s (pageSize * v) make := by
  have hdir : pageDirectoryIndex (pageSize * v + off) = pageDirectoryIndex (pageSize * v) := by
    unfold pageDirectoryIndex pageSize at *
    omega
  have htab : pageTableIndex (pageSize * v + off) = pageTableIndex (pageSize * v) := by
    unfold pageTableIndex pageSize at *
    omega
  simp only [getPage, hdir, htab]

theorem add32_offset (hv : v ≤ kheapStart / pageSize) (hoff : off < pageSize) :
    add32 (pageSize * v + off) pageSize = pageSize * (v + 1) + off := by
  unfold kheapStart pageSize at *
  rw [add32_of_lt (by omega)]
  omega

theorem unmapLoop_offset (hoff : off < pageSize) (hend : last ≤ kheapStart / pageSize)
    (s : Space) (v fuel : ℕ) :
    unmapLoop s (pageSize * v + off) (pageSize * last + off) fuel =
      unmapLoop s (pageSize * v) (pageSize * last) fuel := by
  induction fuel generalizing s v with
  | zero => rfl
  | succ fuel ih =>
    rw [unmapLoop, unmapLoop, getPage_offset hoff]
    by_cases hmore : pageSize * v < pageSize * last
    · have hv : v ≤ kheapStart / pageSize := by
        have := Nat.lt_of_mul_lt_mul_left hmore
        omega
      rw [if_pos (by omega), if_pos hmore, add32_offset hv hoff, add32_page hv]
      split
      · exact ih _ _
      · rfl
    · rw [if_neg (by omega), if_neg hmore]

theorem mapLoop_offset (hoff : off < pageSize) (hend : last ≤ kheapStart / pageSize)
    (kmalloc : ℕ → ℕ) (s : Space) (v fuel : ℕ) :
    mapLoop kmalloc s (pageSize * v + off) (pageSize * last + off) fuel =
      mapLoop kmalloc s (pageSize * v) (pageSize * last) fuel := by
  induction fuel generalizing s v with
  | zero => rfl
  | succ fuel ih =>
    rw [mapLoop, mapLoop, getPage_offset hoff]
    by_cases hmore : pageSize * v ≤ pageSize * last
    · have hv : v ≤ kheapStart / pageSize :=
        (Nat.le_of_mul_le_mul_left hmore (by decide)).trans hend
      rw [if_pos (by omega), if_pos hmore, add32_offset hv hoff, add32_page hv]
      split
      · split
        · exact ih _ _
        · rfl
      · rfl
    · rw [if_neg (by omega), if_neg hmore]

end Offsets

theorem Shaped.of_tables {t : Space} (h : Shaped s) (htabls : t.tabls = s.tabls)
    (htables : ∀ b, (t.tables b).isSome = (s.tables b).isSome) : Shaped t := by
  refine ⟨fun i b hi => ?_, fun i j b hi hj => ?_⟩
  · rw [htables]
    exact h.backed i b (htabls ▸ hi)
  · rw [htabls] at hi hj
    exact h.distinct i j b hi hj

theorem Good.write (h : Good s) (ht : s.tabls (v / 1024) = some t) {p : Page}
    (hmax : m.maxFrames = s.frames.maxFrames)
    (hzero : bitmapTest m 0 = true)
    (hbits : ∀ g, g ≠ 0 → (bitmapTest m g = true ↔
      bitmapTest s.frames g = true ∧ g ≠ (readPage s ⟨t, v % 1024⟩).addr ∨ g = p.addr))
    (hlt : p.addr < s.frames.maxFrames) (hnew : p.addr ≠ 0 → ∀ q, ¬ Refers s q p.addr) :
    Good (writePage { s with frames := m } ⟨t, v % 1024⟩ p) := by
  let r : PageRef := ⟨t, v % 1024⟩
  have hr : r.index < 1024 := Nat.mod_lt _ (by decide)
  have href := refers_writePage (show (s.tables r.table).isSome from h.backed _ _ ht) m p
  refine ⟨⟨?_, ?_, ?_⟩, ⟨⟨?_, ?_⟩, ?_, ?_⟩⟩
  · rw [writePage_frames]
    exact hzero
  · intro g hg0 hgm
    rw [writePage_frames] at hgm ⊢
    have hgm' : g < s.frames.maxFrames := hmax ▸ hgm
    refine (hbits g hg0).trans ?_
    rw [h.used g hg0 hgm']
    constructor
    · rintro (⟨⟨q, hq⟩, hne⟩ | rfl)
      · refine ⟨q, (href q g).mpr ⟨hq.1, ?_, hg0⟩⟩
        rw [if_neg fun he => hne (by rw [← hq.2.1, he])]
        exact hq.2.1
      · exact ⟨r, (href r _).mpr ⟨hr, if_pos rfl, hg0⟩⟩
    · rintro ⟨q, hq⟩
      obtain ⟨hi, ha, -⟩ := (href q g).mp hq
      by_cases hqr : q = r
      · rw [if_pos hqr] at ha
        exact Or.inr ha.symm
      · rw [if_neg hqr] at ha
        refine Or.inl ⟨⟨q, hi, ha, hg0⟩, fun he => hqr ?_⟩
        exact h.once g q r hgm' ⟨hi, ha, hg0⟩ ⟨hr, he.symm, hg0⟩
  · intro g q q' hgm hq hq'
    rw [writePage_frames] at hgm
    obtain ⟨hi, ha, hg0⟩ := (href q g).mp hq
    obtain ⟨hi', ha', -⟩ := (href q' g).mp hq'
    by_cases hqr : q = r <;> by_cases hqr' : q' = r
    · rw [hqr, hqr']
    · rw [if_pos hqr] at ha
      rw [if_neg hqr'] at ha'
      subst ha
      exact absurd ⟨hi', ha', hg0⟩ (hnew hg0 q')
    · rw [if_neg hqr] at ha
      rw [if_pos hqr'] at ha'
      subst ha'
      exact absurd ⟨hi, ha, hg0⟩ (hnew hg0 q)
    · rw [if_neg hqr] at ha
      rw [if_neg hqr'] at ha'
      exact h.once g q q' (hmax ▸ hgm) ⟨hi, ha, hg0⟩ ⟨hi', ha', hg0⟩
  · intro i b hi
    rw [writePage_tabls] at hi
    rw [writePage_isSome]
    exact h.backed i b hi
  · intro i j b hi hj
    rw [writePage_tabls] at hi hj
    exact h.distinct i j b hi hj
  · intro u hu
    rw [writePage_frames, frameOf_writePage h.toShaped ht]
    change _ < m.maxFrames
    rw [hmax]
    split_ifs
    · exact hlt
    · exact h.managed u hu
  · rw [writePage_frames]
    exact hmax.le.trans h.addressable

theorem frameOf_eq_addr (ht : s.tabls (v / 1024) = some t) :
    frameOf s v = (readPage s ⟨t, v % 1024⟩).addr := by
  simp [frameOf, ht]

theorem exists_table (hf : frameOf s v ≠ 0) :
    ∃ t, s.tabls (v / 1024) = some t := by
  cases ht : s.tabls (v / 1024) with
  | none => simp [frameOf, ht] at hf
  | some t => exact ⟨t, rfl⟩

theorem unmap_good (h : Good s) (hv : v ≤ kheapStart / pageSize) (hf : frameOf s v ≠ 0) :
    ∃ r, (getPage id s (pageSize * v) false).1 = some r ∧ Good (pageUnmap s r) ∧
      (∀ u, frameOf (pageUnmap s r) u = if u = v then 0 else frameOf s u) ∧
      (pageUnmap s r).frames = freeFrame s.frames (frameOf s v) := by
  have hlt := page_lt hv
  obtain ⟨t, ht⟩ := exists_table hf
  have hfr := frameOf_eq_addr ht
  have hmax := h.managed v hv
  refine ⟨⟨t, v % 1024⟩, by rw [getPage_present hlt ht], h.write ht rfl ?_ ?_ ?_ ?_,
    frameOf_writePage h.toShaped ht _ _, ?_⟩
  · rw [bitmapTest_freeFrame, h.zero, ← hfr]
    simpa using hf.symm
  · intro g hg0
    simp [hg0]
  · exact Nat.zero_lt_of_lt hmax
  · exact fun hne => absurd rfl hne
  · simp only [pageUnmap, writePage_frames, hfr]

theorem frameOf_refers (hv : frameOf s v ≠ 0) :
    ∃ t, s.tabls (v / 1024) = some t ∧ Refers s ⟨t, v % 1024⟩ (frameOf s v) := by
  obtain ⟨t, ht⟩ := exists_table hv
  exact ⟨t, ht, Nat.mod_lt _ (by decide), (frameOf_eq_addr ht).symm, hv⟩

theorem Good.frameOf_injective (h : Good s) (hu : frameOf s u ≠ 0)
    (hlt : frameOf s u < s.frames.maxFrames) (he : frameOf s u = frameOf s v) : u = v := by
  obtain ⟨t, ht, hrt⟩ := frameOf_refers hu
  obtain ⟨t', ht', hrt'⟩ := frameOf_refers (he ▸ hu)
  rw [← he] at hrt'
  exact h.toShaped.ref_injective ht ht' (h.once _ _ _ hlt hrt hrt')

theorem Good.frameOf_used (h : Good s) (hv : frameOf s v ≠ 0)
    (hlt : frameOf s v < s.frames.maxFrames) : bitmapTest s.frames (frameOf s v) = true := by
  obtain ⟨t, -, hrt⟩ := frameOf_refers hv
  exact (h.used _ hv hlt).mpr ⟨_, hrt⟩

/-- A state in which every page reads as before, over directories that are
again well formed, is again accounted for. -/
theorem Good.of_readPage {s' : Space} (h : Good s) (hread : ∀ r, readPage s' r = readPage s r)
    (hframes : s'.frames = s.frames) (hframe : ∀ u, frameOf s' u = frameOf s u)
    (hshaped : Shaped s') : Good s' := by
  have href : ∀ r f, Refers s' r f ↔ Refers s r f := by
    intro r f
    unfold Refers
    rw [hread]
  refine ⟨⟨?_, ?_, ?_⟩, ⟨hshaped, ?_, ?_⟩⟩
  · rw [hframes]
    exact h.zero
  · intro f hf0 hfm
    rw [hframes] at hfm ⊢
    simp only [href]
    exact h.used f hf0 hfm
  · intro f r r' hfm hr hr'
    rw [hframes] at hfm
    exact h.once f r r' hfm ((href _ _).mp hr) ((href _ _).mp hr')
  · intro u hu
    rw [hframe, hframes]
    exact h.managed u hu
  · rw [hframes]
    exact h.addressable

/-- A page is found in its table, which is made and zeroed if it is missing;
no page changes. -/
theorem getPage_shaped (h : Shaped s) (hk : Fresh s kmalloc) (hv : v < 2 ^ 20) :
    ∃ t s', getPage kmalloc s (pageSize * v) true = (some ⟨t, v % 1024⟩, s') ∧
      s'.tabls (v / 1024) = some t ∧ Shaped s' ∧ Fresh s' kmalloc ∧ s'.frames = s.frames ∧
      s'.mmap = s.mmap ∧ (∀ r, readPage s' r = readPage s r) ∧ ∀ u, frameOf s' u = frameOf s u := by
  cases ht : s.tabls (v / 1024) with
  | some t =>
    exact ⟨t, s, getPage_present hv ht _ _, ht, h, hk, rfl, rfl, fun _ => rfl, fun _ => rfl⟩
  | none =>
    let t := kmalloc (v / 1024)
    let s' : Space := { s with
      tables := Function.update s.tables t (some (fun _ => Page.zero))
      tabls := Function.update s.tabls (v / 1024) (some t) }
    have hnone : s.tables t = none := hk.unused _ ht
    have hread : ∀ r, readPage s' r = readPage s r := by
      intro r
      by_cases hr : r.table = t
      · simp [readPage, s', hr, hnone]
      · simp [readPage, s', Function.update_of_ne hr]
    have hold : ∀ i b, s.tabls i = some b → b ≠ t := by
      rintro i b hb rfl
      have := h.backed _ _ hb
      simp [hnone] at this
    have hslot : ∀ i b, s'.tabls i = some b →
        (i = v / 1024 ∧ b = t) ∨ (i ≠ v / 1024 ∧ s.tabls i = some b) := by
      intro i b hb
      by_cases hi : i = v / 1024
      · subst hi
        left
        simpa [s', eq_comm] using hb
      · right
        simpa [s', Function.update_of_ne hi, hi] using hb
    have hframe : ∀ u, frameOf s' u = frameOf s u := by
      intro u
      by_cases hu : u / 1024 = v / 1024
      · simp [frameOf, hu, ht, s', readPage, Page.zero]
      · simp only [frameOf, s', Function.update_of_ne hu]
        split
        · exact congrArg Page.addr (hread _)
        · rfl
    refine ⟨t, s', ?_, by simp [s'], ⟨?_, ?_⟩, ⟨?_, hk.injective⟩, rfl, rfl, hread, hframe⟩
    · simp only [getPage, directoryIndex_page hv, tableIndex_page, ht, if_true]
      rfl
    · intro i b hb
      rcases hslot i b hb with ⟨-, rfl⟩ | ⟨-, hb⟩
      · simp [s']
      · simpa [s', Function.update_of_ne (hold i b hb)] using h.backed i b hb
    · intro i j b hi hj
      rcases hslot i b hi with ⟨rfl, rfl⟩ | ⟨-, hi⟩
      · rcases hslot j _ hj with ⟨rfl, -⟩ | ⟨-, hj⟩
        · rfl
        · exact absurd rfl (hold j _ hj)
      · rcases hslot j b hj with ⟨-, rfl⟩ | ⟨-, hj⟩
        · exact absurd rfl (hold i _ hi)
        · exact h.distinct i j b hi hj
    · intro i hi
      have hne : i ≠ v / 1024 := by
        rintro rfl
        simp [s'] at hi
      have hb : kmalloc i ≠ t := fun he => hne (hk.injective he)
      simp only [s', Function.update_of_ne hne] at hi
      simpa [s', Function.update_of_ne hb] using hk.unused i hi

theorem getPage_make (h : Good s) (hk : Fresh s kmalloc) (hv : v < 2 ^ 20) :
    ∃ t s', getPage kmalloc s (pageSize * v) true = (some ⟨t, v % 1024⟩, s') ∧
      s'.tabls (v / 1024) = some t ∧ Good s' ∧ Fresh s' kmalloc ∧ s'.frames = s.frames ∧
      s'.mmap = s.mmap ∧ ∀ u, frameOf s' u = frameOf s u := by
  obtain ⟨t, s', hget, hslot, hshaped, hfresh, hframes, hmmap, hread, hframe⟩ :=
    getPage_shaped h.toShaped hk hv
  exact ⟨t, s', hget, hslot, h.of_readPage hread hframes hframe hshaped, hfresh, hframes, hmmap,
    hframe⟩

theorem map_good (h : Good s) (ht : s.tabls (v / 1024) = some t) (hf : frameOf s v = 0)
    (hfree : 0 < (freeFrames s.frames).card) :
    ∃ s' f, pageMap s ⟨t, v % 1024⟩ false true = some s' ∧ Good s' ∧ f ≠ 0 ∧
      f ∈ freeFrames s.frames ∧ freeFrames s'.frames = (freeFrames s.frames).erase f ∧
      (∀ u, frameOf s' u = if u = v then f else frameOf s u) ∧
      (∀ g, bitmapTest s.frames g = true → bitmapTest s'.frames g = true) ∧
      s'.tabls = s.tabls ∧ s'.mmap = s.mmap ∧
      ∀ t, (s'.tables t).isSome = (s.tables t).isSome := by
  obtain ⟨free, hmem⟩ := Finset.card_pos.mp hfree
  obtain ⟨hlt, hclear⟩ := Finset.mem_filter.mp hmem
  rw [Finset.mem_range] at hlt
  have haddressable := h.addressable
  obtain ⟨f, m, halloc, hle, hfclear, -, hmax, htest⟩ := allocFrame_spec hclear hlt (by omega)
  have hf0 : f ≠ 0 := by
    rintro rfl
    rw [h.zero] at hfclear
    cases hfclear
  let p := mappedPage false true f
  have hp : p.addr = f := Nat.mod_eq_of_lt (by omega)
  have haddr : (readPage s ⟨t, v % 1024⟩).addr = 0 := by rw [← frameOf_eq_addr ht, hf]
  have hframe := frameOf_writePage h.toShaped ht m p
  rw [hp] at hframe
  -- no entry can hold the frame that was free
  have hnone : ∀ q, ¬ Refers s q f := by
    intro q hq
    have := (h.used f hf0 (by omega)).mpr ⟨q, hq⟩
    rw [hfclear] at this
    cases this
  refine ⟨writePage { s with frames := m } ⟨t, v % 1024⟩ p, f, ?_, h.write ht hmax ?_ ?_ ?_ ?_, hf0,
    ?_, ?_, hframe, ?_, ?_, ?_, ?_⟩
  · simp only [pageMap]
    rw [if_neg (by simpa using haddr), halloc]
  · rw [htest, h.zero, Bool.true_or]
  · intro g hg0
    rw [htest, haddr, hp, Bool.or_eq_true, decide_eq_true_eq]
    tauto
  · rw [hp]
    omega
  · rw [hp]
    exact fun _ => hnone
  · exact Finset.mem_filter.mpr ⟨Finset.mem_range.mpr (by omega), hfclear⟩
  · ext g
    simp only [freeFrames, Finset.mem_erase, Finset.mem_filter, Finset.mem_range, writePage_frames,
      hmax, htest, Bool.or_eq_false_iff, decide_eq_false_iff_not]
    tauto
  · intro g hg
    simp only [writePage_frames, htest, hg, Bool.true_or]
  · exact writePage_tabls _ _ _
  · exact writePage_mmap _ _ _
  · exact writePage_isSome _ _ _

end Bingos.Mmap
