import Bingos.ExecModel
import Bingos.MmapFrames

set_option autoImplicit false

/-! Which addresses the processor still translates after `do_munmap`. The frame
number and the present bit of an entry are separate fields, and `page_unmap`
clears only the first. -/
namespace Bingos.Mmap
open MachineWords Frames StepRuns

def Present (s : Space) (virt : ℕ) : Prop :=
  ∃ t, s.tabls (pageDirectoryIndex virt) = some t ∧
    (readPage s ⟨t, pageTableIndex virt⟩).present = true

theorem walk_eq_none_iff (s : Space) (virt : ℕ) : walk s virt = none ↔ ¬ Present s virt := by
  unfold walk Present
  cases s.tabls (pageDirectoryIndex virt) with
  | none => simp
  | some t =>
    dsimp only
    split_ifs with h
    · simp [h]
    · simp [h]

theorem pageUnmap_present (s : Space) (r q : PageRef) :
    (readPage (pageUnmap s r) q).present = (readPage s q).present := by
  cases hr : s.tables r.table with
  | none =>
    simp only [pageUnmap, writePage, hr]
    rfl
  | some T =>
    have hsome : (({ s with frames := freeFrame s.frames (readPage s r).addr } : Space).tables
        r.table).isSome := by simp [hr]
    rw [pageUnmap, readPage_writePage hsome]
    split_ifs with hq
    · rw [hq]
    · rfl

theorem unmapLoop_present {s t : Space} {i stop fuel : ℕ} (h : unmapLoop s i stop fuel = some t) :
    t.tabls = s.tabls ∧ ∀ q, (readPage t q).present = (readPage s q).present := by
  refine unmapLoop_invariant (P := fun s' => s'.tabls = s.tabls ∧
    ∀ q, (readPage s' q).present = (readPage s q).present)
    (fun s' r hs' => ⟨?_, fun q => ?_⟩) ⟨rfl, fun _ => rfl⟩ h
  · rw [pageUnmap, writePage_tabls, hs'.1]
  · rw [pageUnmap_present, hs'.2]

theorem doMunmap_present {s t : Space} {addr len : ℕ} (h : doMunmap s addr len = some t)
    (virt : ℕ) : Present t virt ↔ Present s virt := by
  have hsame : t.tabls = s.tabls ∧ ∀ q, (readPage t q).present = (readPage s q).present := by
    simp only [doMunmap] at h
    split_ifs at h with hz hany
    · rw [← Option.some.inj h]
      exact ⟨rfl, fun _ => rfl⟩
    · have hloop := unmapLoop_present h
      exact hloop
    · rw [← Option.some.inj h]
      exact ⟨rfl, fun _ => rfl⟩
  simp only [Present, hsame.1, hsame.2]

/-- After `do_munmap` the range is inaccessible iff it was so before. -/
theorem munmap_inaccessible_iff {s t : Space} {addr len : ℕ} (h : doMunmap s addr len = some t) :
    (∀ virt, addr ≤ virt → virt < addr + pageAlign len →
      ¬ Present t virt ∧ walk t virt = none) ↔
    ∀ virt, addr ≤ virt → virt < addr + pageAlign len → ¬ Present s virt := by
  constructor
  · intro hafter virt hlo hhi hbefore
    exact (hafter virt hlo hhi).1 ((doMunmap_present h virt).mpr hbefore)
  · intro hbefore virt hlo hhi
    have hnot : ¬ Present t virt := by
      rw [doMunmap_present h]
      exact hbefore virt hlo hhi
    exact ⟨hnot, (walk_eq_none_iff t virt).mpr hnot⟩

def reservedArea : Space :=
  { booted with
    tables := fun t => if t = 1 then some fun _ => Page.zero else none
    tabls := fun i => if i = 128 then some 1 else none
    mmap := [⟨0x20000000, 0x20001000⟩] }

theorem munmap_inaccessible_iff_reserved : ∃ t,
    doMunmap reservedArea 0x20000000 0x1000 = some t ∧
    ∀ virt, 0x20000000 ≤ virt → virt < 0x20000000 + pageAlign 0x1000 →
      ¬ Present t virt ∧ walk t virt = none := by
  have hrun : (doMunmap reservedArea 0x20000000 0x1000).isSome := by decide +kernel
  obtain ⟨t, ht⟩ := Option.isSome_iff_exists.mp hrun
  refine ⟨t, ht, (munmap_inaccessible_iff ht).mpr ?_⟩
  rintro virt - - ⟨b, hb, hp⟩
  have hzero : readPage reservedArea ⟨b, pageTableIndex virt⟩ = Page.zero := by
    by_cases h1 : b = 1
    · simp [readPage, reservedArea, h1]
    · simp [readPage, reservedArea, h1]
  rw [hzero] at hp
  cases hp

/-- A page that is mapped and unmapped again stays present, on frame zero. -/
theorem unmapped_page_reads_frame_zero : ∃ s t,
    doMmap id booted 0x20000000 0x1000 = some s ∧ s.mmap = [⟨0x20000000, 0x20001000⟩] ∧
    doMunmap s 0x20000000 0x1000 = some t ∧ t.mmap = [] ∧
    walk t 0x20000000 = some 0 ∧ Present t 0x20000000 := by
  have hrun : (doMmap id booted 0x20000000 0x1000).bind (fun s =>
      (doMunmap s 0x20000000 0x1000).map fun t => (s.mmap, t.mmap, walk t 0x20000000)) =
      some ([⟨0x20000000, 0x20001000⟩], [], some 0) := by
    decide +kernel
  obtain ⟨s, hs, hr⟩ := Option.bind_eq_some_iff.mp hrun
  obtain ⟨t, ht, hr⟩ := Option.map_eq_some_iff.mp hr
  obtain ⟨hmapped, hr⟩ := Prod.mk.inj hr
  obtain ⟨hareas, hwalk⟩ := Prod.mk.inj hr
  refine ⟨s, t, hs, hmapped, ht, hareas, hwalk, ?_⟩
  by_contra hnot
  rw [(walk_eq_none_iff t _).mpr hnot] at hwalk
  cases hwalk

end Bingos.Mmap
