import Bingos.BootModel

set_option autoImplicit false

/-! The identity map at boot follows from the order in which `mmu_init` takes
frames: page `v` is mapped when exactly the frames below `v` are in use. -/
namespace Bingos.Mmap
open MachineWords Frames

/-- The entry of page number `v`, blank where there is no table. -/
def pageOf (s : Space) (v : ℕ) : Page :=
  match s.tabls (v / 1024) with
  | some t => readPage s ⟨t, v % 1024⟩
  | none => Page.zero

def slotsOf (s : Space) : Finset ℕ := (Finset.range 1024).filter fun i => (s.tabls i).isSome

/-- Tables built so far for the directory at `pd`: whole pages one after the
other behind it, up to the placement address. -/
structure Building (pd : ℕ) (b : Boot) : Prop where
  shaped : Shaped b.space
  slot : ∀ i t, b.space.tabls i = some t → i < 1024
  block : ∀ i t, b.space.tabls i = some t →
    t % 0x1000 = 0 ∧ pd + 0x3000 ≤ t ∧ t + 0x1000 ≤ b.placementAddr
  free : ∀ t, b.placementAddr ≤ t → b.space.tables t = none
  placement : (b.placementAddr + 0xfff) / 0x1000 * 0x1000 =
    pd + 0x3000 + 0x1000 * (slotsOf b.space).card
  aligned : (slotsOf b.space).Nonempty → b.placementAddr % 0x1000 = 0

theorem alignUp_of_aligned {a : ℕ} (h : a % 0x1000 = 0) : (a + 0xfff) / 0x1000 * 0x1000 = a := by
  omega

theorem preAlloc_aligned {p size : ℕ} (h : (p + 0xfff) / 0x1000 * 0x1000 + size < 2 ^ 32) :
    preAlloc p size true =
      ((p + 0xfff) / 0x1000 * 0x1000, (p + 0xfff) / 0x1000 * 0x1000 + size) := by
  by_cases hp : p % 4096 = 0
  · rw [alignUp_of_aligned hp] at h ⊢
    simp only [preAlloc, hp, ne_eq, not_true_eq_false, and_false, if_false, add32_of_lt h]
  · have hnext : (p + 0xfff) / 0x1000 * 0x1000 = p / 4096 * 4096 + 0x1000 := by omega
    have hup : add32 (p / 4096 * 4096) 0x1000 = (p + 0xfff) / 0x1000 * 0x1000 := by
      rw [hnext] at h ⊢
      exact add32_of_lt (lt_of_le_of_lt (Nat.le_add_right _ size) h)
    simp only [preAlloc, hp, ne_eq, not_false_eq_true, and_self, if_true, hup, add32_of_lt h]

theorem slotsOf_card_le (s : Space) : (slotsOf s).card ≤ 1024 :=
  (Finset.card_filter_le _ _).trans (Finset.card_range 1024).le

variable {b : Boot} {s : Space} {fuel pd stop t v virt M fbLength frameBuffer n : ℕ} {S : Finset ℕ}

theorem Building.placement_eq (h : Building pd b) (hne : (slotsOf b.space).Nonempty) :
    b.placementAddr = pd + 0x3000 + 0x1000 * (slotsOf b.space).card := by
  have halign := h.aligned hne
  have hp := h.placement
  omega

theorem bootPage_make (h : Building pd b) (hvirt : virt < 2 ^ 32)
    (hpd : pd + 0x404000 ≤ kheapStart) :
    ∃ t b', bootPage b virt true = (some ⟨t, virt / 0x1000 % 1024⟩, b') ∧
      b'.space.tabls (virt / 0x1000 / 1024) = some t ∧ Building pd b' ∧
      slotsOf b'.space = insert (virt / 0x1000 / 1024) (slotsOf b.space) ∧
      b'.space.frames = b.space.frames ∧ ∀ u, pageOf b'.space u = pageOf b.space u := by
  have hdir := directoryIndex_eq hvirt
  have htab := tableIndex_eq virt
  have hlt : virt / 0x1000 / 1024 < 1024 := by omega
  cases ht : b.space.tabls (virt / 0x1000 / 1024) with
  | some t =>
    have hmem : virt / 0x1000 / 1024 ∈ slotsOf b.space := by
      simp [slotsOf, hlt, ht]
    refine ⟨t, b, ?_, ht, h, (Finset.insert_eq_of_mem hmem).symm, rfl, fun _ => rfl⟩
    simp [bootPage, getPage, hdir, htab, ht]
  | none =>
    have hnot : virt / 0x1000 / 1024 ∉ slotsOf b.space := by simp [slotsOf, ht]
    have hcard : (slotsOf b.space).card < 1024 := by
      have hsub : slotsOf b.space ⊂ Finset.range 1024 := by
        refine Finset.ssubset_iff_subset_ne.mpr ⟨Finset.filter_subset _ _, fun he => hnot ?_⟩
        rw [he, Finset.mem_range]
        exact hlt
      simpa using Finset.card_lt_card hsub
    have hplace := h.placement
    obtain ⟨t, htdef⟩ : ∃ t, t = (b.placementAddr + 0xfff) / 0x1000 * 0x1000 := ⟨_, rfl⟩
    have htop : t + 4096 < 2 ^ 32 := by
      unfold kheapStart at hpd
      omega
    have htge : b.placementAddr ≤ t := by omega
    have hfree : b.space.tables t = none := h.free t htge
    let s' : Space := { b.space with
      tables := Function.update b.space.tables t (some fun _ => Page.zero)
      tabls := Function.update b.space.tabls (virt / 0x1000 / 1024) (some t) }
    have hget : bootPage b virt true = (some ⟨t, virt / 0x1000 % 1024⟩, ⟨s', t + 4096⟩) := by
      have halloc := preAlloc_aligned (htdef ▸ htop)
      rw [← htdef] at halloc
      simp only [bootPage, getPage, hdir, htab, ht, halloc]
      rfl
    have hslots : slotsOf s' = insert (virt / 0x1000 / 1024) (slotsOf b.space) := by
      ext i
      by_cases hi : i = virt / 0x1000 / 1024
      · subst hi
        simp [slotsOf, s', hlt]
      · simp [slotsOf, s', hi]
    have hslot : ∀ i a, s'.tabls i = some a →
        (i = virt / 0x1000 / 1024 ∧ a = t) ∨ b.space.tabls i = some a := by
      intro i a ha
      by_cases hi : i = virt / 0x1000 / 1024
      · subst hi
        left
        simpa [s', eq_comm] using ha
      · right
        simpa [s', Function.update_of_ne hi] using ha
    have hold : ∀ i a, b.space.tabls i = some a → a < t := by
      intro i a ha
      have := (h.block i a ha).2.2
      omega
    have hmod : t % 0x1000 = 0 := by omega
    have hend : (t + 4096) % 0x1000 = 0 := by rw [Nat.add_mod_right, hmod]
    have hsize : t = pd + 0x3000 + 0x1000 * (slotsOf b.space).card := htdef.trans hplace
    refine ⟨t, ⟨s', t + 4096⟩, hget, by simp [s'], ⟨⟨?_, ?_⟩, ?_, ?_, ?_, ?_, ?_⟩, hslots, rfl, ?_⟩
    · intro i a ha
      rcases hslot i a ha with ⟨-, rfl⟩ | ha
      · simp [s']
      · simpa [s', Function.update_of_ne (hold i a ha).ne] using h.shaped.backed i a ha
    · intro i j a hi hj
      rcases hslot i a hi with ⟨hiv, hia⟩ | hib
      · rcases hslot j a hj with ⟨hjv, -⟩ | hjb
        · rw [hiv, hjv]
        · exact absurd hia (hold j a hjb).ne
      · rcases hslot j a hj with ⟨-, hja⟩ | hjb
        · exact absurd hja (hold i a hib).ne
        · exact h.shaped.distinct i j a hib hjb
    · intro i a ha
      rcases hslot i a ha with ⟨rfl, -⟩ | ha
      · exact hlt
      · exact h.slot i a ha
    · intro i a ha
      rcases hslot i a ha with ⟨-, rfl⟩ | ha
      · exact ⟨hmod, by omega, le_refl _⟩
      · obtain ⟨h1, h2, h3⟩ := h.block i a ha
        exact ⟨h1, h2, by change a + 0x1000 ≤ t + 4096; omega⟩
    · intro a ha
      change t + 4096 ≤ a at ha
      have hne : a ≠ t := by omega
      simpa [s', Function.update_of_ne hne] using h.free a (by omega)
    · rw [hslots, Finset.card_insert_of_notMem hnot, alignUp_of_aligned hend, hsize]
      ring
    · exact fun _ => hend
    · intro u
      change pageOf s' u = pageOf b.space u
      by_cases hu : u / 1024 = virt / 0x1000 / 1024
      · simp [pageOf, hu, ht, s', readPage]
      · simp only [pageOf, s', Function.update_of_ne hu]
        split
        · rename_i a ha
          have hne : a ≠ t := (hold _ a ha).ne
          simp only [readPage, Function.update_of_ne hne]
        · rfl

open Classical in
/-- The slots `get_page` is called for by a loop over the pages up to `stop`. -/
noncomputable def visitedSlots (virt stop : ℕ) : Finset ℕ :=
  (Finset.range 1024).filter fun i =>
    ∃ k, virt + 0x1000 * k < stop ∧ (virt + 0x1000 * k) / 0x1000 / 1024 = i

theorem mem_visitedSlots (virt : ℕ) (i : ℕ) (hstop : stop ≤ 2 ^ 32) :
    i ∈ visitedSlots virt stop ↔
      ∃ k, virt + 0x1000 * k < stop ∧ (virt + 0x1000 * k) / 0x1000 / 1024 = i := by
  simp only [visitedSlots, Finset.mem_filter, Finset.mem_range]
  refine ⟨fun h => h.2, fun h => ⟨?_, h⟩⟩
  obtain ⟨k, hk, rfl⟩ := h
  omega

theorem visitedSlots_subset (virt stop : ℕ) : visitedSlots virt stop ⊆ Finset.range 1024 := by
  classical
  exact Finset.filter_subset _ _

theorem visitedSlots_of_le (h : stop ≤ virt) : visitedSlots virt stop = ∅ := by
  classical
  refine Finset.filter_eq_empty_iff.mpr fun i _ => ?_
  rintro ⟨k, hk, -⟩
  omega

theorem visitedSlots_step (h : virt < stop) (hstop : stop ≤ 2 ^ 32) :
    visitedSlots virt stop =
      insert (virt / 0x1000 / 1024) (visitedSlots (virt + 0x1000) stop) := by
  ext i
  rw [Finset.mem_insert, mem_visitedSlots _ _ hstop, mem_visitedSlots _ _ hstop]
  constructor
  · rintro ⟨k, hk, rfl⟩
    cases k with
    | zero => exact Or.inl rfl
    | succ k =>
      have hshift : virt + 0x1000 * (k + 1) = virt + 0x1000 + 0x1000 * k := by ring
      rw [hshift] at hk ⊢
      exact Or.inr ⟨k, hk, rfl⟩
  · rintro (rfl | ⟨k, hk, rfl⟩)
    · exact ⟨0, h, rfl⟩
    · have hshift : virt + 0x1000 * (k + 1) = virt + 0x1000 + 0x1000 * k := by ring
      exact ⟨k + 1, by rw [hshift]; exact hk, by rw [hshift]⟩

/-- Where a loop over the pages from `virt` to `stop` ends, if its address does not wrap. -/
def loopEnd (virt stop : ℕ) : ℕ := virt + (stop - virt + 0xfff) / 0x1000 * 0x1000

theorem loopEnd_next (h : virt < stop) :
    loopEnd (virt + 0x1000) stop = loopEnd virt stop ∧ stop ≤ loopEnd virt stop := by
  unfold loopEnd
  omega

theorem le_loopEnd (virt stop : ℕ) : virt ≤ loopEnd virt stop := Nat.le_add_right virt _

theorem makeLoop_spec (virt : ℕ) (fuel : ℕ) (h : Building pd b) (hpd : pd + 0x404000 ≤ kheapStart)
    (hend : loopEnd virt stop < 2 ^ 32) (hfuel : stop - virt + 0x1000 ≤ 0x1000 * fuel) :
    ∃ b', makeLoop b virt stop fuel = some b' ∧ Building pd b' ∧
      slotsOf b'.space = slotsOf b.space ∪ visitedSlots virt stop ∧
      b'.space.frames = b.space.frames ∧ ∀ u, pageOf b'.space u = pageOf b.space u := by
  induction fuel generalizing b virt with
  | zero => omega
  | succ fuel ih =>
    by_cases hmore : virt < stop
    · obtain ⟨hnext, hle⟩ := loopEnd_next hmore
      have hvirt := le_loopEnd (virt + 0x1000) stop
      rw [← hnext] at hend hle
      obtain ⟨t, b₁, hget, -, h₁, hslots, hframes, hpages⟩ :=
        bootPage_make h (show virt < 2 ^ 32 by omega) hpd
      obtain ⟨b', hloop, h', hslots', hframes', hpages'⟩ :=
        ih (virt + 0x1000) h₁ hend (by omega)
      refine ⟨b', ?_, h', ?_, hframes'.trans hframes, fun u => (hpages' u).trans (hpages u)⟩
      · rw [makeLoop, if_pos hmore, hget, add32_of_lt (by omega)]
        exact hloop
      · rw [hslots', hslots, visitedSlots_step hmore (by omega), Finset.insert_union,
          Finset.union_insert]
    · refine ⟨b, by rw [makeLoop, if_neg hmore], h, ?_, rfl, fun _ => rfl⟩
      rw [visitedSlots_of_le (Nat.not_lt.mp hmore), Finset.union_empty]

def UsedBelow (m : FrameMap) (v : ℕ) : Prop :=
  ∀ g, g < m.maxFrames → bitmapTest m g = decide (g < v)

theorem UsedBelow.alloc {m : FrameMap} (h : UsedBelow m v) (hv : v < m.maxFrames)
    (hmax : m.maxFrames < 2 ^ 32) :
    ∃ m', allocFrame m = some (v, m') ∧ m'.maxFrames = m.maxFrames ∧ UsedBelow m' (v + 1) := by
  have hfree : bitmapTest m v = false := by
    rw [h v hv]
    simp
  obtain ⟨f, m', halloc, hle, hclear, -, hsame, hbits⟩ := allocFrame_spec hfree hv hmax
  obtain rfl : f = v := by
    rw [h f (by omega), decide_eq_false_iff_not] at hclear
    omega
  refine ⟨m', halloc, hsame, fun g hg => ?_⟩
  rw [hbits, h g (hsame ▸ hg), ← Bool.decide_or]
  exact decide_eq_decide.mpr (by omega)

theorem pageOf_write {s' : Space} (h : Shaped s) {p : Page}
    (ht : s.tabls (v / 1024) = some t) (htabls : s'.tabls = s.tabls)
    (hread : ∀ q, readPage s' q = if q = ⟨t, v % 1024⟩ then p else readPage s q) (u : ℕ) :
    pageOf s' u = if u = v then p else pageOf s u := by
  unfold pageOf
  rw [htabls]
  by_cases huv : u = v
  · subst huv
    rw [if_pos rfl, ht]
    simp only [hread, if_true]
  · rw [if_neg huv]
    cases hu : s.tabls (u / 1024) with
    | none => rfl
    | some t' =>
      simp only [hread]
      rw [if_neg fun he => huv (h.ref_injective hu ht he)]

theorem Building.of_tables (h : Building pd b) (htabls : s.tabls = b.space.tabls)
    (htables : ∀ a, (s.tables a).isSome = (b.space.tables a).isSome) :
    Building pd ⟨s, b.placementAddr⟩ := by
  have hslots : slotsOf s = slotsOf b.space := by
    unfold slotsOf
    rw [htabls]
  refine ⟨h.shaped.of_tables htabls htables, ?_, ?_, ?_, ?_, ?_⟩
  · intro i t ht
    exact h.slot i t (htabls ▸ ht)
  · intro i t ht
    exact h.block i t (htabls ▸ ht)
  · intro t ht
    have hnone := htables t
    rw [h.free t ht, Option.isSome_none] at hnone
    exact Option.isSome_eq_false_iff.mp hnone |> Option.isNone_iff_eq_none.mp
  · rw [hslots]
    exact h.placement
  · rw [hslots]
    exact h.aligned

theorem bootMap_spec (h : Building pd b) {w : ℕ} (ht : b.space.tabls (v / 1024) = some t)
    (hbare : (pageOf b.space v).addr = 0) (hused : UsedBelow b.space.frames w)
    (hw : w < b.space.frames.maxFrames) (hmax : b.space.frames.maxFrames < 2 ^ 32) :
    ∃ s, bootMap b.space (some ⟨t, v % 1024⟩) = some s ∧ Building pd ⟨s, b.placementAddr⟩ ∧
      s.tabls = b.space.tabls ∧ UsedBelow s.frames (w + 1) ∧
      s.frames.maxFrames = b.space.frames.maxFrames ∧
      ∀ u, pageOf s u = if u = v then mappedPage true false w else pageOf b.space u := by
  obtain ⟨m, halloc, hsame, hnext⟩ := hused.alloc hw hmax
  have hpage : (readPage b.space ⟨t, v % 1024⟩).addr = 0 := by
    rw [pageOf, ht] at hbare
    exact hbare
  obtain ⟨s, hmap, hm, htabls, hread, -, htables⟩ :=
    pageMap_bare true false (h.shaped.backed _ _ ht) hpage halloc
  refine ⟨s, hmap, h.of_tables htabls htables, htabls, by rw [hm]; exact hnext,
    by rw [hm]; exact hsame, pageOf_write h.shaped ht htabls hread⟩

/-- The pages mapped by the identity loop, `n` of them, and by the first `k`
iterations of the heap loop. -/
def bootPages (n k u : ℕ) : Page :=
  if u < n then mappedPage true false u
  else if kheapStart / 0x1000 ≤ u ∧ u < kheapStart / 0x1000 + k then
    mappedPage true false (n + (u - kheapStart / 0x1000))
  else Page.zero

/-- The state of the boot loops: `n` pages mapped to their own frames, `k` heap pages behind. -/
structure Booting (pd : ℕ) (slots : Finset ℕ) (maxFrames n k : ℕ) (b : Boot) : Prop where
  building : Building pd b
  slots : slotsOf b.space = slots
  frames : b.space.frames.maxFrames = maxFrames
  used : UsedBelow b.space.frames (n + k)
  pages : ∀ u, pageOf b.space u = bootPages n k u

def slotsAt (S : Finset ℕ) (v : ℕ) : Finset ℕ := S ∪ (Finset.range 1024).filter fun i => i * 1024 < v

theorem slotsAt_succ (S : Finset ℕ) (hv : v < 2 ^ 20) :
    slotsAt S (v + 1) = insert (v / 1024) (slotsAt S v) := by
  ext i
  simp only [slotsAt, Finset.mem_union, Finset.mem_insert, Finset.mem_filter, Finset.mem_range]
  constructor
  · rintro (h | ⟨h, hlt⟩)
    · exact Or.inr (Or.inl h)
    · by_cases hi : i = v / 1024
      · exact Or.inl hi
      · exact Or.inr (Or.inr ⟨h, by omega⟩)
  · rintro (rfl | h | ⟨h, hlt⟩)
    · exact Or.inr ⟨by omega, by omega⟩
    · exact Or.inl h
    · exact Or.inr ⟨h, by omega⟩

def placementAt (pd : ℕ) (S : Finset ℕ) (v : ℕ) : ℕ := pd + 0x3000 + 0x1000 * (slotsAt S v).card

theorem identityLoop_spec (hpd : pd + 0x404000 ≤ kheapStart)
    (hS : S.Nonempty) (hn : placementAt pd S n + 0x1000 ≤ 0x1000 * n)
    (hmin : ∀ v < n, 0x1000 * v < placementAt pd S v + 0x1000)
    (hheap : n ≤ kheapStart / 0x1000) (hM : n ≤ M) (hmax : M < 2 ^ 32) (hv : v ≤ n)
    (hfuel : n - v < fuel) (h : Booting pd (slotsAt S v) M v 0 b) :
    ∃ b', identityLoop b (0x1000 * v) fuel = some b' ∧ Booting pd (slotsAt S n) M n 0 b' := by
  induction fuel generalizing v b with
  | zero => omega
  | succ fuel ih =>
    have hne : (slotsOf b.space).Nonempty := by
      rw [h.slots]
      exact hS.mono Finset.subset_union_left
    have hplace : b.placementAddr = placementAt pd S v := by
      rw [h.building.placement_eq hne, h.slots]
      rfl
    have hcard := slotsOf_card_le b.space
    rw [h.slots] at hcard
    have hstop : add32 b.placementAddr 0x1000 = placementAt pd S v + 0x1000 := by
      rw [hplace, add32_of_lt]
      unfold placementAt
      unfold kheapStart at hpd
      omega
    rw [identityLoop, hstop]
    rcases hv.lt_or_eq with hlt | rfl
    · rw [if_pos (hmin v hlt)]
      have hv20 : v + 1 < 2 ^ 20 := by
        unfold kheapStart at hheap
        omega
      have hdiv : 0x1000 * v / 0x1000 = v := Nat.mul_div_cancel_left v (by decide)
      obtain ⟨t, b₁, hget, ht, h₁, hslots, hframes, hpages⟩ :=
        bootPage_make h.building (show 0x1000 * v < 2 ^ 32 by omega) hpd
      rw [hdiv] at hget ht hslots
      have hbare : (pageOf b₁.space v).addr = 0 := by
        rw [hpages, h.pages, bootPages, if_neg (lt_irrefl v), if_neg (by omega)]
        rfl
      obtain ⟨s, hmap, hb, htabls, hused, hmaxs, hpages'⟩ := bootMap_spec h₁ ht hbare
        (w := v) (by rw [hframes]; exact h.used) (by rw [hframes, h.frames]; omega)
        (by rw [hframes, h.frames]; exact hmax)
      have hnext : Booting pd (slotsAt S (v + 1)) M (v + 1) 0 ⟨s, b₁.placementAddr⟩ := by
        refine ⟨hb, ?_, ?_, hused, fun u => ?_⟩
        · have hsame : slotsOf s = slotsOf b₁.space := by
            unfold slotsOf
            rw [htabls]
          rw [hsame, hslots, h.slots, slotsAt_succ S (by omega)]
        · rw [hmaxs, hframes, h.frames]
        · rw [hpages', hpages, h.pages]
          unfold bootPages
          by_cases hu : u = v
          · rw [if_pos hu, if_pos (by omega), hu]
          · rw [if_neg hu]
            by_cases hlow : u < v
            · rw [if_pos hlow, if_pos (by omega)]
            · rw [if_neg hlow, if_neg (show ¬ u < v + 1 by omega), if_neg (by omega),
                if_neg (by omega)]
      obtain ⟨b', hloop, h'⟩ := ih (v := v + 1) (by omega) (by omega) hnext
      refine ⟨b', ?_, h'⟩
      rw [hget, hmap, Option.bind_some, add32_of_lt (by omega),
        show 0x1000 * v + 0x1000 = 0x1000 * (v + 1) by ring]
      exact hloop
    · rw [if_neg (by omega)]
      exact ⟨b, rfl, h⟩

theorem bootPage_present (b : Boot) (hvirt : virt < 2 ^ 32)
    (ht : b.space.tabls (virt / 0x1000 / 1024) = some t) (make : Bool) :
    bootPage b virt make = (some ⟨t, virt / 0x1000 % 1024⟩, b) := by
  simp [bootPage, getPage, directoryIndex_eq hvirt, tableIndex_eq virt, ht]

theorem exists_slot {i : ℕ} (h : i ∈ slotsOf s) : ∃ t, s.tabls i = some t :=
  Option.isSome_iff_exists.mp (Finset.mem_filter.mp h).2

theorem heapLoop_spec (hS : ∀ k < kheapInitialSize / 0x1000, (kheapStart / 0x1000 + k) / 1024 ∈ S)
    (hheap : n ≤ kheapStart / 0x1000) (hM : n + kheapInitialSize / 0x1000 ≤ M) (hmax : M < 2 ^ 32)
    {k : ℕ} (hk : k ≤ kheapInitialSize / 0x1000)
    (hfuel : kheapInitialSize / 0x1000 - k < fuel) (h : Booting pd S M n k b) :
    ∃ b', heapLoop b (kheapStart + 0x1000 * k) (kheapStart + kheapInitialSize) fuel = some b' ∧
      Booting pd S M n (kheapInitialSize / 0x1000) b' ∧ b'.placementAddr = b.placementAddr := by
  have hstart : kheapStart = 0x1000 * (kheapStart / 0x1000) := by decide
  have hsize : kheapInitialSize = 0x1000 * (kheapInitialSize / 0x1000) := by decide
  have hroom : kheapStart / 0x1000 + kheapInitialSize / 0x1000 < 2 ^ 20 - 1 := by decide
  induction fuel generalizing k b with
  | zero => omega
  | succ fuel ih =>
    rw [heapLoop]
    rcases hk.lt_or_eq with hlt | rfl
    · obtain ⟨v, hv⟩ : ∃ v, v = kheapStart / 0x1000 + k := ⟨_, rfl⟩
      have hvirt : kheapStart + 0x1000 * k = 0x1000 * v := by omega
      have hdiv : 0x1000 * v / 0x1000 = v := Nat.mul_div_cancel_left v (by decide)
      rw [if_pos (by omega), hvirt]
      obtain ⟨t, ht⟩ := exists_slot (s := b.space) (by rw [h.slots]; exact hS k hlt)
      rw [← hv] at ht
      have hget := bootPage_present b (show 0x1000 * v < 2 ^ 32 by omega)
        (by rw [hdiv]; exact ht) false
      rw [hdiv] at hget
      have hbare : (pageOf b.space v).addr = 0 := by
        rw [h.pages, bootPages, if_neg (by omega), if_neg (by omega)]
        rfl
      obtain ⟨s, hmap, hb, htabls, hused, hmaxs, hpages⟩ := bootMap_spec h.building ht hbare
        h.used (by rw [h.frames]; omega) (by rw [h.frames]; exact hmax)
      have hnext : Booting pd S M n (k + 1) ⟨s, b.placementAddr⟩ := by
        refine ⟨hb, ?_, hmaxs.trans h.frames, hused, fun u => ?_⟩
        · rw [← h.slots]
          unfold slotsOf
          rw [htabls]
        · rw [hpages, h.pages]
          unfold bootPages
          by_cases hu : u = v
          · rw [if_pos hu, if_neg (by omega), if_pos (by omega),
              show u - kheapStart / 0x1000 = k by omega]
          · rw [if_neg hu]
            by_cases hin : kheapStart / 0x1000 ≤ u ∧ u < kheapStart / 0x1000 + k
            · rw [if_pos hin, if_pos (show kheapStart / 0x1000 ≤ u ∧ _ by omega)]
            · rw [if_neg hin, if_neg (show ¬ (kheapStart / 0x1000 ≤ u ∧
                u < kheapStart / 0x1000 + (k + 1)) by omega)]
      obtain ⟨b', hloop, h', hplace⟩ := ih (k := k + 1) (by omega) (by omega) hnext
      refine ⟨b', ?_, h', hplace⟩
      rw [hget, hmap, Option.bind_some, add32_of_lt (by omega),
        show 0x1000 * v + 0x1000 = kheapStart + 0x1000 * (k + 1) by omega]
      exact hloop
    · rw [if_neg (by omega)]
      exact ⟨b, rfl, h, rfl⟩

/-- A page whose frame is not managed is filled in without touching the bitmap,
unless it is mapped already. -/
theorem pageIdenticalMap_above (h : Shaped s)
    (ht : s.tabls (v / 1024) = some t) (hv : v = virt / 0x1000) (hhigh : s.frames.maxFrames < v) :
    ∃ s', pageIdenticalMap s ⟨t, v % 1024⟩ true false virt = some s' ∧ s'.tabls = s.tabls ∧
      (∀ a, (s'.tables a).isSome = (s.tables a).isSome) ∧
      s'.frames.maxFrames = s.frames.maxFrames ∧
      ∀ u, u ≤ s.frames.maxFrames ∨ (pageOf s u).addr ≠ 0 → pageOf s' u = pageOf s u := by
  by_cases hp : (readPage s ⟨t, v % 1024⟩).addr = 0
  · have hframe : getFrame s.frames (virt / 2 ^ 12) = some s.frames := by
      rw [getFrame, if_pos (by omega)]
    refine ⟨writePage s ⟨t, v % 1024⟩ (mappedPage true false (virt / 2 ^ 12)), ?_,
      writePage_tabls _ _ _, writePage_isSome _ _ _, by rw [writePage_frames], fun u hu => ?_⟩
    · rw [pageIdenticalMap, if_neg (not_not.mpr hp), hframe, Option.map_some]
    · rw [pageOf_write h ht (writePage_tabls _ _ _)
        (readPage_writePage (r := ⟨t, v % 1024⟩) (h.backed _ _ ht) _), if_neg]
      rintro rfl
      rcases hu with hu | hu
      · omega
      · rw [pageOf, ht] at hu
        exact hu hp
  · exact ⟨s, by rw [pageIdenticalMap, if_pos hp], rfl, fun _ => rfl, rfl, fun _ _ => rfl⟩

theorem frameBufferLoop_spec (virt : ℕ) (fuel : ℕ) (h : Building pd b)
    (hend : loopEnd virt stop < 2 ^ 32) (hslots : visitedSlots virt stop ⊆ slotsOf b.space)
    (habove : virt < stop → b.space.frames.maxFrames < virt / 0x1000)
    (hfuel : stop - virt + 0x1000 ≤ 0x1000 * fuel) :
    ∃ b', frameBufferLoop b virt stop fuel = some b' ∧ b'.placementAddr = b.placementAddr ∧
      b'.space.tabls = b.space.tabls ∧
      ∀ u, u ≤ b.space.frames.maxFrames ∨ (pageOf b.space u).addr ≠ 0 →
        pageOf b'.space u = pageOf b.space u := by
  induction fuel generalizing b virt with
  | zero => omega
  | succ fuel ih =>
    rw [frameBufferLoop]
    by_cases hmore : virt < stop
    · obtain ⟨v, hv⟩ : ∃ v, v = virt / 0x1000 := ⟨_, rfl⟩
      obtain ⟨hnext, hle⟩ := loopEnd_next hmore
      have hvirt := le_loopEnd (virt + 0x1000) stop
      rw [← hnext] at hend hle
      have hstep := visitedSlots_step hmore (show stop ≤ 2 ^ 32 by omega)
      rw [hstep, Finset.insert_subset_iff, ← hv] at hslots
      obtain ⟨t, ht⟩ := exists_slot hslots.1
      have hget := bootPage_present b (show virt < 2 ^ 32 by omega) (by rw [← hv]; exact ht) true
      rw [← hv] at hget
      have hhigh : b.space.frames.maxFrames < v := hv ▸ habove hmore
      obtain ⟨s, hmap, htabls, htables, hmaxs, hpages⟩ :=
        pageIdenticalMap_above h.shaped ht hv hhigh
      have hslots' : slotsOf s = slotsOf b.space := by
        unfold slotsOf
        rw [htabls]
      obtain ⟨b', hloop, hplace, htabls', hpages'⟩ := ih (virt + 0x1000)
        (h.of_tables htabls htables) hend (by rw [hslots']; exact hslots.2)
        (fun _ => by rw [hmaxs]; omega) (by omega)
      refine ⟨b', ?_, hplace, htabls'.trans htabls, fun u hu => ?_⟩
      · rw [if_pos hmore, hget, Option.bind_some, hmap, Option.bind_some, add32_of_lt (by omega)]
        exact hloop
      · rw [hpages' u, hpages u hu]
        rw [hpages u hu, hmaxs]
        exact hu
    · rw [if_neg hmore]
      exact ⟨b, rfl, rfl, rfl, fun _ _ => rfl⟩

/-- The loops have left the directory, its tables and everything else below
the placement address mapped to the frames of their own numbers, and the heap
to consecutive frames above. -/
structure BootMapped (pd : ℕ) (b : Boot) : Prop where
  directory : pd % 0x1000 = 0 ∧ pd + 8196 ≤ b.placementAddr
  tables : ∀ i t, b.space.tabls i = some t → t % 0x1000 = 0 ∧ t + 0x1000 ≤ b.placementAddr
  identity : ∀ v, 0x1000 * v < b.placementAddr →
    (pageOf b.space v).present = true ∧ (pageOf b.space v).addr = v
  heap : ∃ n, b.placementAddr ≤ 0x1000 * n ∧ ∀ k < kheapInitialSize / 0x1000,
    (pageOf b.space (kheapStart / 0x1000 + k)).present = true ∧
      (pageOf b.space (kheapStart / 0x1000 + k)).addr = n + k

theorem building_start (frames : FrameMap) (hpd : pd % 0x1000 = 0) :
    Building pd ⟨⟨frames, fun _ => none, fun _ => none, []⟩, pd + 8196⟩ := by
  have hslots : slotsOf ⟨frames, fun _ => none, fun _ => none, []⟩ = ∅ := by simp [slotsOf]
  refine ⟨⟨?_, ?_⟩, ?_, ?_, fun _ _ => rfl, ?_, ?_⟩
  · exact fun i t ht => nomatch ht
  · exact fun i j t ht => nomatch ht
  · exact fun i t ht => nomatch ht
  · exact fun i t ht => nomatch ht
  · rw [hslots, Finset.card_empty]
    dsimp only
    omega
  · rw [hslots]
    exact fun h => absurd h Finset.not_nonempty_empty

/-- Where the identity loop stops: the first page behind the placement address
and one page more. -/
theorem exists_stop (S : Finset ℕ) (hS : S ⊆ Finset.range 1024) (hpd : pd % 0x1000 = 0)
    (hlow : pd + 0x404000 ≤ kheapStart) :
    ∃ n, placementAt pd S n + 0x1000 ≤ 0x1000 * n ∧
      (∀ v < n, 0x1000 * v < placementAt pd S v + 0x1000) ∧ n ≤ kheapStart / 0x1000 ∧
      n ≤ placementAt pd S n / 0x1000 + 1 ∧ placementAt pd S n ≤ pd + 0x403000 := by
  have hcard : ∀ v, (slotsAt S v).card ≤ 1024 := by
    intro v
    have hsub : slotsAt S v ⊆ Finset.range 1024 := Finset.union_subset hS (Finset.filter_subset _ _)
    simpa using Finset.card_le_card hsub
  have hstart : kheapStart = 0x1000 * (kheapStart / 0x1000) := by decide
  have hbound : ∀ v, placementAt pd S v ≤ pd + 0x403000 := by
    intro v
    have := hcard v
    unfold placementAt
    omega
  have hex : ∃ n, placementAt pd S n + 0x1000 ≤ 0x1000 * n := by
    refine ⟨kheapStart / 0x1000, ?_⟩
    have := hbound (kheapStart / 0x1000)
    omega
  obtain ⟨n, hn, hmin, hleast⟩ : ∃ n, placementAt pd S n + 0x1000 ≤ 0x1000 * n ∧
      (∀ v < n, ¬ placementAt pd S v + 0x1000 ≤ 0x1000 * v) ∧
      ∀ v, placementAt pd S v + 0x1000 ≤ 0x1000 * v → n ≤ v :=
    ⟨Nat.find hex, Nat.find_spec hex, fun _ => Nat.find_min hex, fun _ => Nat.find_min' hex⟩
  refine ⟨n, hn, fun v hv => Nat.not_le.mp (hmin v hv), hleast _ ?_, ?_, hbound n⟩
  · have := hbound (kheapStart / 0x1000)
    omega
  · cases n with
    | zero => omega
    | succ m =>
      have hlast := hmin m (by omega)
      have hsub : slotsAt S m ⊆ slotsAt S (m + 1) := by
        refine Finset.union_subset_union_right fun i hi => ?_
        rw [Finset.mem_filter] at hi ⊢
        exact ⟨hi.1, by omega⟩
      have := Finset.card_le_card hsub
      unfold placementAt at *
      omega

theorem mappedPage_addr {u : ℕ} (h : u < 2 ^ 20) : (mappedPage true false u).addr = u :=
  Nat.mod_eq_of_lt h

/-- Boot mapping. The final placement address `P` does not depend on the frame
bitmap, and the frames needed are those of the pages up to one behind it and
of the initial heap. Below the heap there is room for the directory and as many
tables as it has entries. -/
theorem boot_mapping {placementAddr frameBuffer fbLength : ℕ}
    (hlow : placementAddr + 0x405000 ≤ kheapStart)
    (hfb : loopEnd frameBuffer (add32 frameBuffer fbLength) < 2 ^ 32) :
    ∃ P, P ≤ placementAddr + 0x404000 ∧ ∀ frames : FrameMap, UsedBelow frames 0 →
      frames.maxFrames < 2 ^ 32 →
      P / 0x1000 + 1 + kheapInitialSize / 0x1000 ≤ frames.maxFrames →
      (fbLength ≠ 0 → frames.maxFrames < frameBuffer / 0x1000) →
      ∃ pd b, mmuInit frames placementAddr frameBuffer fbLength pageFuel = some (pd, b) ∧
        b.placementAddr = P ∧ BootMapped pd b := by
  have hk : kheapStart < 2 ^ 32 - 0x20000000 := by decide
  obtain ⟨pd, hpd⟩ : ∃ pd, pd = (placementAddr + 0xfff) / 0x1000 * 0x1000 := ⟨_, rfl⟩
  have hmod : pd % 0x1000 = 0 := by omega
  have hlow' : pd + 0x404000 ≤ kheapStart := by omega
  have hinit : preAlloc placementAddr 8196 true = (pd, pd + 8196) := by
    rw [preAlloc_aligned (by omega), ← hpd]
  have hmax : loopEnd kheapStart (kheapStart + kheapMaxSize) < 2 ^ 32 := by decide
  obtain ⟨stop, hstop⟩ : ∃ stop, stop = add32 frameBuffer fbLength := ⟨_, rfl⟩
  rw [← hstop] at hfb
  have hstop32 : stop < 2 ^ 32 := hstop ▸ Nat.mod_lt _ (by decide)
  have hempty : frameBuffer < stop → fbLength ≠ 0 := by
    rintro hlt rfl
    rw [hstop, add32, Nat.add_zero] at hlt
    exact absurd (Nat.mod_le _ _) (Nat.not_le.mpr hlt)
  let S := visitedSlots kheapStart (kheapStart + kheapMaxSize) ∪ visitedSlots frameBuffer stop
  have hS : S ⊆ Finset.range 1024 :=
    Finset.union_subset (visitedSlots_subset _ _) (visitedSlots_subset _ _)
  have hheapSlots : ∀ k < kheapInitialSize / 0x1000, (kheapStart / 0x1000 + k) / 1024 ∈ S := by
    intro k hk
    have hmem := mem_visitedSlots kheapStart ((kheapStart / 0x1000 + k) / 1024)
      (show kheapStart + kheapMaxSize ≤ 2 ^ 32 by decide)
    refine Finset.mem_union_left _ (hmem.mpr ⟨k, ?_, ?_⟩)
    · unfold kheapInitialSize kheapMaxSize at *
      omega
    · unfold kheapStart
      omega
  obtain ⟨n, hn, hmin, hheap, hpages, hbound⟩ := exists_stop S hS hmod hlow'
  refine ⟨placementAt pd S n, by omega, fun frames hclear hword henough habove => ?_⟩
  obtain ⟨b₁, hloop₁, h₁, hslots₁, hframes₁, hpages₁⟩ :=
    makeLoop_spec kheapStart pageFuel (building_start frames hmod) hlow' hmax (by decide)
  obtain ⟨b₂, hloop₂, h₂, hslots₂, hframes₂, hpages₂⟩ :=
    makeLoop_spec frameBuffer pageFuel h₁ hlow' hfb (by unfold pageFuel; omega)
  have hslots : slotsOf b₂.space = S := by
    rw [hslots₂, hslots₁]
    simp [slotsOf, S]
  have hframes : b₂.space.frames = frames := by rw [hframes₂, hframes₁]
  have hstart : Booting pd (slotsAt S 0) frames.maxFrames 0 0 b₂ := by
    refine ⟨h₂, ?_, by rw [hframes], by rw [hframes]; exact hclear, fun u => ?_⟩
    · rw [hslots]
      simp [slotsAt]
    · rw [hpages₂, hpages₁, bootPages, if_neg (Nat.not_lt_zero u), if_neg (by omega)]
      rfl
  have hSne : S.Nonempty := ⟨_, hheapSlots 0 (by decide)⟩
  obtain ⟨b₃, hloop₃, h₃⟩ := identityLoop_spec hlow' hSne hn hmin hheap (by omega) hword
    (Nat.zero_le n) (show n - 0 < pageFuel by unfold pageFuel; omega) hstart
  have hsub : S ⊆ slotsAt S n := Finset.subset_union_left
  obtain ⟨b₄, hloop₄, h₄, hplace₄⟩ := heapLoop_spec (fun k hk => hsub (hheapSlots k hk)) hheap
    (by omega) hword (Nat.zero_le _)
    (show kheapInitialSize / 0x1000 - 0 < pageFuel by decide) h₃
  obtain ⟨b₅, hloop₅, hplace₅, htabls₅, hpages₅⟩ := frameBufferLoop_spec frameBuffer
    pageFuel h₄.building hfb
    (by rw [h₄.slots]; exact Finset.subset_union_right.trans hsub)
    (fun hlt => by rw [h₄.frames]; exact habove (hempty hlt)) (by unfold pageFuel; omega)
  have hplace : b₅.placementAddr = placementAt pd S n := by
    have hne : (slotsOf b₃.space).Nonempty := by
      rw [h₃.slots]
      exact hSne.mono hsub
    rw [hplace₅, hplace₄, h₃.building.placement_eq hne, h₃.slots]
    rfl
  refine ⟨pd, b₅, ?_, hplace, ⟨hmod, ?_⟩, ?_, ?_, n, by omega, ?_⟩
  · rw [Nat.mul_zero] at hloop₃
    rw [Nat.mul_zero, Nat.add_zero] at hloop₄
    simp only [mmuInit, hinit, hmod, ← hstop, ne_eq, not_true_eq_false, if_false, hloop₁, hloop₂,
      hloop₃, hloop₄, hloop₅, Option.bind_some, Option.map_some]
  · rw [hplace]
    unfold placementAt
    omega
  · intro i t ht
    have hb := h₄.building.block i t (htabls₅ ▸ ht)
    exact ⟨hb.1, by omega⟩
  · intro v hv
    have hvn : v < n := by omega
    have hpage : pageOf b₅.space v = mappedPage true false v := by
      rw [hpages₅ v (Or.inl (by rw [h₄.frames]; omega)), h₄.pages, bootPages, if_pos hvn]
    rw [hpage]
    exact ⟨rfl, mappedPage_addr (by omega)⟩
  · intro k hk
    have hold : pageOf b₄.space (kheapStart / 0x1000 + k) = mappedPage true false (n + k) := by
      rw [h₄.pages, bootPages, if_neg (by omega), if_pos (by omega), Nat.add_sub_cancel_left]
    have haddr : (mappedPage true false (n + k)).addr = n + k := mappedPage_addr (by
      have : kheapStart / 0x1000 + kheapInitialSize / 0x1000 < 2 ^ 20 := by decide
      omega)
    have hpage := hpages₅ (kheapStart / 0x1000 + k) (Or.inr (by rw [hold, haddr]; omega))
    rw [hpage, hold]
    exact ⟨rfl, haddr⟩

def clearFrames (maxFrames : ℕ) : FrameMap := ⟨fun _ => 0, 0, maxFrames⟩

theorem clearFrames_unused (maxFrames : ℕ) : UsedBelow (clearFrames maxFrames) 0 := by
  intro g _
  rw [bitmapTest, PackedBits.test_eq]
  simp [clearFrames]

theorem boot_mapping_once : ∃ pd b,
    mmuInit (clearFrames 0x20000) 0x200000 0xe0000000 0x300000 pageFuel = some (pd, b) ∧
      BootMapped pd b := by
  obtain ⟨P, hP, h⟩ := boot_mapping (show 0x200000 + 0x405000 ≤ kheapStart by decide)
    (show loopEnd 0xe0000000 (add32 0xe0000000 0x300000) < 2 ^ 32 by decide)
  have henough : P / 0x1000 + 1 + kheapInitialSize / 0x1000 ≤ (clearFrames 0x20000).maxFrames := by
    change P / 0x1000 + 1 + 0x2000 ≤ 0x20000
    omega
  obtain ⟨pd, b, hrun, -, hmapped⟩ := h (clearFrames 0x20000) (clearFrames_unused _) (by decide)
    henough (by decide)
  exact ⟨pd, b, hrun, hmapped⟩

theorem makeLoop_wraps (b : Boot) (hlt : virt < 2 ^ 32)
    (hfar : 2 ^ 32 - 0x1000 + virt % 0x1000 < stop) (fuel : ℕ) :
    makeLoop b virt stop fuel = none := by
  induction fuel generalizing b virt with
  | zero => rfl
  | succ fuel ih =>
    rw [makeLoop, if_pos (by omega)]
    exact ih _ (Nat.mod_lt _ (by decide)) (by unfold add32; omega)

/-- The bound on the frame buffer is exact: where the loop that builds its tables would end
above the address space, it does not end. -/
theorem mmuInit_wraps (frames : FrameMap) (placementAddr : ℕ) (hlt : frameBuffer < 2 ^ 32)
    (hfb : 2 ^ 32 ≤ loopEnd frameBuffer (add32 frameBuffer fbLength)) (fuel : ℕ) :
    mmuInit frames placementAddr frameBuffer fbLength fuel = none := by
  have hstop : add32 frameBuffer fbLength < 2 ^ 32 := Nat.mod_lt _ (by decide)
  have hfar : 2 ^ 32 - 0x1000 + frameBuffer % 0x1000 < add32 frameBuffer fbLength := by
    unfold loopEnd at hfb
    omega
  have hloop : ∀ b, makeLoop b frameBuffer (add32 frameBuffer fbLength) fuel = none :=
    fun b => makeLoop_wraps b hlt hfar fuel
  simp only [mmuInit, hloop, Option.bind_none, Option.bind_fun_none, ite_self]

theorem BootMapped.placement_le (h : BootMapped pd b) :
    b.placementAddr ≤ kheapStart := by
  have hstart : kheapStart = 0x1000 * (kheapStart / 0x1000) := by decide
  obtain ⟨n, hn, hpages⟩ := h.heap
  have hfirst := (hpages 0 (by decide)).2
  rw [Nat.add_zero, Nat.add_zero] at hfirst
  by_contra hlt
  have hown := (h.identity (kheapStart / 0x1000) (by omega)).2
  have hsame : n = kheapStart / 0x1000 := hfirst.symm.trans hown
  rw [hsame, ← hstart] at hn
  exact hlt hn

theorem mmuInit_directory {frames : FrameMap} {placementAddr : ℕ}
    (h : mmuInit frames placementAddr frameBuffer fbLength fuel = some (pd, b)) :
    pd = (preAlloc placementAddr 8196 true).1 := by
  simp only [mmuInit] at h
  split_ifs at h
  simp only [Option.bind_eq_some_iff, Option.map_eq_some_iff, Prod.mk.injEq] at h
  obtain ⟨-, -, -, -, -, -, -, -, -, -, hpd, -⟩ := h
  exact hpd.symm

/-- A frame buffer of 4095 bytes in the last page: the loop that builds its
tables wraps around and does not end. -/
theorem top_frame_buffer_diverges :
    UsedBelow (clearFrames 0x20000) 0 ∧ (clearFrames 0x20000).maxFrames < 0xfffff000 / 0x1000 ∧
    ∀ fuel, mmuInit (clearFrames 0x20000) 0x200000 0xfffff000 0xfff fuel = none :=
  ⟨clearFrames_unused _, by decide, mmuInit_wraps _ _ (by decide) (by decide)⟩

/-- A kernel image that ends two pages below the heap: the directory itself
reaches the heap, so that the two ranges cannot have frames of their own. -/
theorem high_placement_unmapped : ∀ frames frameBuffer fbLength fuel,
    ¬ ∃ pd b, mmuInit frames (kheapStart - 0x2000) frameBuffer fbLength fuel = some (pd, b) ∧
      BootMapped pd b := by
  rintro frames frameBuffer fbLength fuel ⟨pd, b, hrun, h⟩
  have hpd : pd = kheapStart - 0x2000 := mmuInit_directory hrun
  have hdir := h.directory.2
  have hle := h.placement_le
  unfold kheapStart at *
  omega

end Bingos.Mmap
