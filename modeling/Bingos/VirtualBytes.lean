import Bingos.ExecModel
import Bingos.MmapAreas
import Bingos.MmapRemap

set_option autoImplicit false

/-! Reading and writing through the page tables, for pages that have a frame. -/
namespace Bingos.Mmap
open MachineWords Frames CStrings ByteMemory

def Live (s : Space) : Prop := ∀ r, (readPage s r).addr ≠ 0 → (readPage s r).present = true

variable {bs : Bytes} {M M' : Machine} {s t : Space} {virt : ℕ}

theorem Live.write (h : Live s) (m : FrameMap) (r : PageRef) {p : Page}
    (hp : p.addr ≠ 0 → p.present = true) : Live (writePage { s with frames := m } r p) := by
  intro q hq
  cases hr : s.tables r.table with
  | none =>
    rw [writePage] at hq ⊢
    simp only [hr] at hq ⊢
    exact h q hq
  | some T =>
    have hsome : (({ s with frames := m } : Space).tables r.table).isSome := by
      change (s.tables r.table).isSome
      rw [hr]
      rfl
    rw [readPage_writePage hsome] at hq ⊢
    split_ifs at hq ⊢ with he
    · exact hp hq
    · exact h q hq

theorem Live.getPage (h : Live s) (kmalloc : ℕ → ℕ) (virt : ℕ) (make : Bool) :
    Live (getPage kmalloc s virt make).2 := by
  simp only [Mmap.getPage]
  split
  · exact h
  · split_ifs
    · intro q hq
      by_cases hq' : q.table = kmalloc (pageDirectoryIndex virt)
      · simp [readPage, hq', Page.zero] at hq
      · simp only [readPage, Function.update_of_ne hq'] at hq ⊢
        exact h q hq
    · exact h

theorem Live.pageMap (h : Live s) {r : PageRef} {kernel rw : Bool}
    (hmap : pageMap s r kernel rw = some t) : Live t := by
  unfold Mmap.pageMap at hmap
  split_ifs at hmap
  · rw [← Option.some.inj hmap]
    exact h
  · split at hmap
    · rw [← Option.some.inj hmap]
      exact h.write _ _ fun _ => rfl
    · cases hmap

variable {fuel a addr dst i len src stop x : ℕ} {kmalloc : ℕ → ℕ}

theorem Live.unmapLoop (h : Live s) (hloop : unmapLoop s i stop fuel = some t) : Live t := by
  refine unmapLoop_invariant (fun s' r hs' => ?_) h hloop
  exact hs'.write _ r fun h0 => absurd rfl h0

theorem Live.mapLoop (h : Live s) (hloop : mapLoop kmalloc s i stop fuel = some t) : Live t := by
  refine mapLoop_invariant (fun s' virt hs' => ?_) (fun s' r t' hs' hmap => ?_) h hloop
  · exact hs'.getPage kmalloc virt true
  · exact hs'.pageMap hmap

theorem Live.doMunmap (h : Live s) (hrun : doMunmap s addr len = some t) : Live t := by
  simp only [Mmap.doMunmap] at hrun
  split_ifs at hrun
  · rw [← Option.some.inj hrun]
    exact h
  · generalize s.mmap.filter _ = areas at hrun
    have hlive : Live { s with mmap := areas } := h
    exact hlive.unmapLoop hrun
  · rw [← Option.some.inj hrun]
    exact h

theorem Live.doMmap (h : Live s) (hrun : doMmap kmalloc s addr len = some t) : Live t := by
  simp only [Mmap.doMmap] at hrun
  split_ifs at hrun
  · rw [← Option.some.inj hrun]
    exact h
  · split at hrun
    · cases hrun
    · rename_i s₁ hunmap
      split at hrun
      · cases hrun
      · rename_i s₂ hmap
        rw [← Option.some.inj hrun]
        exact fun r => (h.doMunmap hunmap).mapLoop hmap r

section Walks
variable {last v : ℕ}

theorem walk_writePage (h : Shaped s) {t : ℕ} (ht : s.tabls (v / 1024) = some t)
    (m : FrameMap) (p : Page) (hvirt : virt < 2 ^ 32) (hne : virt / 0x1000 ≠ v) :
    walk (writePage { s with frames := m } ⟨t, v % 1024⟩ p) virt = walk s virt := by
  have hb : (({ s with frames := m } : Space).tables t).isSome := h.backed _ _ ht
  simp only [walk, writePage_tabls, directoryIndex_eq hvirt, tableIndex_eq]
  cases hu : s.tabls (virt / 0x1000 / 1024) with
  | none => rfl
  | some t' =>
    have href : (⟨t', virt / 0x1000 % 1024⟩ : PageRef) ≠ ⟨t, v % 1024⟩ := fun he =>
      hne (h.ref_injective hu ht he)
    simp only [readPage_writePage (r := ⟨t, v % 1024⟩) hb, if_neg href]
    rfl

theorem walk_getPage (h : Shaped s) (hk : Fresh s kmalloc)
    (a virt : ℕ) : walk (getPage kmalloc s a true).2 virt = walk s virt := by
  simp only [getPage]
  cases ha : s.tabls (pageDirectoryIndex a) with
  | some t => rfl
  | none =>
    simp only [if_true, walk]
    by_cases hslot : pageDirectoryIndex virt = pageDirectoryIndex a
    · rw [hslot, Function.update_self, ha]
      simp [readPage, Page.zero]
    · rw [Function.update_of_ne hslot]
      cases hu : s.tabls (pageDirectoryIndex virt) with
      | none => rfl
      | some t =>
        have hne : t ≠ kmalloc (pageDirectoryIndex a) := by
          rintro rfl
          have hback := h.backed _ _ hu
          rw [hk.unused _ ha] at hback
          cases hback
        simp only [readPage, Function.update_of_ne hne]
        rfl

theorem walk_unmapLoop (h : Shaped s) (hend : last ≤ kheapStart / pageSize)
    (hloop : unmapLoop s (pageSize * v) (pageSize * last) fuel = some t) (hvirt : virt < 2 ^ 32)
    (hout : virt / 0x1000 < v ∨ last ≤ virt / 0x1000) : walk t virt = walk s virt := by
  induction fuel generalizing s v with
  | zero => cases hloop
  | succ fuel ih =>
    obtain ⟨-, rfl⟩ | ⟨hlt, b, hst, hloop⟩ := unmapLoop_cases hend hloop
    · rfl
    · have hs₁ : Shaped (pageUnmap s ⟨b, v % 1024⟩) :=
        h.of_tables (writePage_tabls _ _ _) (writePage_isSome _ _ _)
      rw [ih hs₁ hloop (by omega)]
      exact walk_writePage h hst _ _ hvirt (by omega)

theorem walk_mapLoop (h : Shaped s) (hk : Fresh s kmalloc) (hend : last ≤ kheapStart / pageSize)
    (hloop : mapLoop kmalloc s (pageSize * v) (pageSize * last) fuel = some t)
    (hvirt : virt < 2 ^ 32) (hout : virt / 0x1000 < v ∨ last < virt / 0x1000) :
    walk t virt = walk s virt := by
  induction fuel generalizing s v with
  | zero => cases hloop
  | succ fuel ih =>
    by_cases hle : v ≤ last
    · obtain ⟨b, s₁, hget, hslot, hs₁, hk₁, -⟩ := getPage_shaped h hk (page_lt (hle.trans hend))
      have hwalk := walk_getPage h hk (pageSize * v) virt
      rw [hget] at hwalk
      rw [mapLoop_next hle hend hget] at hloop
      obtain ⟨s₂, hmap, hloop⟩ := Option.bind_eq_some_iff.mp hloop
      obtain ⟨hs₂, htabls, htables, -⟩ := pageMap_shaped hs₁ hslot hmap
      rw [ih hs₂ (hk₁.of_tables htabls htables) hloop (by omega), ← hwalk]
      unfold pageMap at hmap
      split_ifs at hmap
      · rw [← Option.some.inj hmap]
      · split at hmap
        · rw [← Option.some.inj hmap]
          exact walk_writePage hs₁ hslot _ _ hvirt (by omega)
        · cases hmap
    · rw [mapLoop_done (Nat.not_le.mp hle)] at hloop
      rw [← Option.some.inj hloop]

end Walks

def byteAddr (s : Space) (virt : ℕ) : ℕ :=
  frameByte (frameOf s (virt / 0x1000)) (virt % 0x1000)

theorem walk_eq (h : Live s) (hvirt : virt < 2 ^ 32)
    (hf : frameOf s (virt / 0x1000) ≠ 0) : walk s virt = some (byteAddr s virt) := by
  obtain ⟨t, ht⟩ := exists_table hf
  have haddr := frameOf_eq_addr ht
  have hpresent := h ⟨t, virt / 0x1000 % 1024⟩ (by rw [← haddr]; exact hf)
  rw [walk, directoryIndex_eq hvirt, tableIndex_eq, ht]
  simp only [hpresent, if_true, byteAddr, haddr]

theorem byteAddr_injective (h : Good s) {b : ℕ} (ha : a < kheapStart)
    (hfa : frameOf s (a / 0x1000) ≠ 0) (he : byteAddr s a = byteAddr s b) : a = b := by
  unfold byteAddr frameByte at he
  have hframe : frameOf s (a / 0x1000) = frameOf s (b / 0x1000) := by omega
  have hlt : frameOf s (a / 0x1000) < s.frames.maxFrames := by
    refine h.managed _ ?_
    unfold kheapStart pageSize at *
    omega
  have hpage := h.frameOf_injective hfa hlt hframe
  omega

theorem storeBytes_spec (M : Machine) (virt : ℕ) (place : ℕ → ℕ)
    (hwalk : ∀ k < bs.length, walk M.space ((virt + k) % 2 ^ 32) = some (place k))
    (hinj : ∀ j < bs.length, ∀ k < bs.length, place j = place k → j = k) :
    ∃ M', storeBytes M virt bs = some M' ∧ M'.space = M.space ∧
      (∀ k (hk : k < bs.length), M'.phys (place k) = bs[k]) ∧
      ∀ x, (∀ k < bs.length, x ≠ place k) → M'.phys x = M.phys x := by
  induction bs generalizing M virt place with
  | nil => exact ⟨M, rfl, rfl, nofun, fun _ _ => rfl⟩
  | cons b bs ih =>
    have hfirst : storeByte M (virt % 2 ^ 32) b =
        some { M with phys := Function.update M.phys (place 0) b } := by
      have h0 := hwalk 0 (by simp)
      rw [Nat.add_zero] at h0
      rw [storeByte, h0, Option.map_some]
    have hlen : ∀ k, k < bs.length → k + 1 < (b :: bs).length := fun k hk => by
      rw [List.length_cons]
      omega
    obtain ⟨M', hrun, hspace, hbytes, hframe⟩ := ih
      { M with phys := Function.update M.phys (place 0) b } (virt + 1) (fun k => place (k + 1))
      (fun k hk => by
        rw [show virt + 1 + k = virt + (k + 1) by omega]
        exact hwalk (k + 1) (hlen k hk))
      (fun j hj k hk he => by
        have := hinj (j + 1) (hlen j hj) (k + 1) (hlen k hk) he
        omega)
    refine ⟨M', ?_, hspace, fun k hk => ?_, fun x hx => ?_⟩
    · rw [storeBytes, hfirst]
      exact hrun
    · cases k with
      | zero =>
        have hlater : ∀ k < bs.length, place 0 ≠ place (k + 1) := fun k hk he => by
          have := hinj 0 (by simp) (k + 1) (hlen k hk) he
          omega
        rw [hframe _ hlater, List.getElem_cons_zero]
        exact Function.update_self _ _ _
      | succ k =>
        rw [hbytes k (by simpa using hk), List.getElem_cons_succ]
    · rw [hframe x fun k hk => hx (k + 1) (hlen k hk)]
      exact Function.update_of_ne (hx 0 (by simp)) _ _

theorem loadByte_mapped (h : Live M.space) (hvirt : virt < 2 ^ 32)
    (hf : frameOf M.space (virt / 0x1000) ≠ 0) :
    loadByte M virt = some (M.phys (byteAddr M.space virt)) := by
  rw [loadByte, walk_eq h hvirt hf, Option.map_some]

theorem storeBytes_mapped (hgood : Good M.space) (hlive : Live M.space)
    (hend : virt + bs.length ≤ kheapStart)
    (hf : ∀ k < bs.length, frameOf M.space ((virt + k) / 0x1000) ≠ 0) :
    ∃ M', storeBytes M virt bs = some M' ∧ M'.space = M.space ∧
      (∀ k (hk : k < bs.length), M'.phys (byteAddr M.space (virt + k)) = bs[k]) ∧
      ∀ x, (∀ k < bs.length, x ≠ byteAddr M.space (virt + k)) → M'.phys x = M.phys x := by
  have hlow : ∀ k < bs.length, virt + k < kheapStart := fun k hk => by omega
  refine storeBytes_spec M virt (fun k => byteAddr M.space (virt + k)) (fun k hk => ?_)
    fun j hj k hk he => ?_
  · have hlt : virt + k < 2 ^ 32 := (hlow k hk).trans (by decide)
    rw [Nat.mod_eq_of_lt hlt]
    exact walk_eq hlive hlt (hf k hk)
  · have := byteAddr_injective hgood (hlow j hj) (hf j hj) he
    omega

theorem walk_byteAddr (hvirt : virt < 2 ^ 32) (h : walk s virt = some a) :
    a = byteAddr s virt := by
  simp only [walk, directoryIndex_eq hvirt, tableIndex_eq] at h
  cases ht : s.tabls (virt / 0x1000 / 1024) with
  | none =>
    rw [ht] at h
    cases h
  | some t =>
    rw [ht] at h
    simp only at h
    split_ifs at h
    rw [← Option.some.inj h, byteAddr, frameOf_eq_addr ht]

theorem storeBytes_space (h : storeBytes M virt bs = some M') : M'.space = M.space := by
  induction bs generalizing M virt with
  | nil => rw [← Option.some.inj h]
  | cons b bs ih =>
    obtain ⟨M₁, hfirst, hrest⟩ := Option.bind_eq_some_iff.mp h
    obtain ⟨a, -, rfl⟩ := Option.map_eq_some_iff.mp hfirst
    have hspace := ih hrest
    exact hspace

theorem storeBytes_walk (h : storeBytes M virt bs = some M') {k : ℕ} (hk : k < bs.length) :
    ∃ a, walk M.space ((virt + k) % 2 ^ 32) = some a := by
  induction bs generalizing M virt k with
  | nil => cases hk
  | cons b bs ih =>
    obtain ⟨M₁, hfirst, hrest⟩ := Option.bind_eq_some_iff.mp h
    obtain ⟨a, ha, rfl⟩ := Option.map_eq_some_iff.mp hfirst
    cases k with
    | zero => exact ⟨a, ha⟩
    | succ k =>
      rw [show virt + (k + 1) = virt + 1 + k by omega]
      exact ih hrest (Nat.lt_of_succ_lt_succ hk)

theorem storeBytes_same
    (h : ∀ k (hk : k < bs.length), loadByte M ((virt + k) % 2 ^ 32) = some bs[k]) :
    storeBytes M virt bs = some M := by
  induction bs generalizing virt with
  | nil => rfl
  | cons b bs ih =>
    obtain ⟨a, ha, hbyte⟩ := Option.map_eq_some_iff.mp (h 0 (Nat.zero_lt_succ _))
    have hbyte' : M.phys a = b := hbyte
    rw [storeBytes, storeByte, show walk M.space (virt % 2 ^ 32) = some a from ha, Option.map_some,
      Option.bind_some, ← hbyte', Function.update_eq_self]
    refine ih fun k hk => ?_
    rw [show virt + 1 + k = virt + (k + 1) by omega]
    exact h (k + 1) (Nat.succ_lt_succ hk)

theorem memcpy_eq (hsrc : ∀ k (hk : k < bs.length), loadByte M ((src + k) % 2 ^ 32) = some bs[k])
    (hsame : ∀ j k (hk : k < bs.length) (hj : j < k),
      walk M.space ((dst + j) % 2 ^ 32) = walk M.space ((src + k) % 2 ^ 32) → bs[j] = bs[k]) :
    memcpy M dst src bs.length = storeBytes M dst bs := by
  induction bs generalizing M dst src with
  | nil => rfl
  | cons b bs ih =>
    have hfirst : loadByte M (src % 2 ^ 32) = some b := hsrc 0 (by simp)
    rw [List.length_cons, memcpy, hfirst, storeBytes, Option.bind_some]
    cases hstore : storeByte M (dst % 2 ^ 32) b with
    | none => rfl
    | some M₁ =>
      obtain ⟨a, ha, rfl⟩ := Option.map_eq_some_iff.mp hstore
      rw [Option.bind_some, Option.bind_some]
      refine ih (fun k hk => ?_) fun j k hk hj he => ?_
      · obtain ⟨c, hc, hbyte⟩ := Option.map_eq_some_iff.mp (hsrc (k + 1) (Nat.succ_lt_succ hk))
        rw [show src + 1 + k = src + (k + 1) by omega, loadByte, hc, Option.map_some]
        refine congrArg some ?_
        by_cases hca : c = a
        · have hb := hsame 0 (k + 1) (Nat.succ_lt_succ hk) (Nat.succ_pos k)
            (by rw [hc, hca]; exact ha)
          rw [hca]
          exact (Function.update_self _ _ _).trans hb
        · exact (Function.update_of_ne hca _ _).trans hbyte
      · refine hsame (j + 1) (k + 1) (Nat.succ_lt_succ hk) (Nat.succ_lt_succ hj) ?_
        rw [show dst + (j + 1) = dst + 1 + j by omega, show src + (k + 1) = src + 1 + k by omega]
        exact he

theorem memcpy_space {n : ℕ} (h : memcpy M dst src n = some M') :
    M'.space = M.space := by
  induction n generalizing M dst src with
  | zero => rw [← Option.some.inj h]
  | succ n ih =>
    obtain ⟨b, -, hrest⟩ := Option.bind_eq_some_iff.mp h
    obtain ⟨M₁, hfirst, hrest⟩ := Option.bind_eq_some_iff.mp hrest
    obtain ⟨a, -, rfl⟩ := Option.map_eq_some_iff.mp hfirst
    have hspace := ih hrest
    exact hspace

section Overlap
variable {n : ℕ} {place : ℕ → ℕ}
  (hwalk : ∀ k < n, walk M.space ((dst + k) % 2 ^ 32) = some (place k))
  (hcopy : memcpy M dst src n = some M')

theorem memcpy_succ (hwalk : ∀ k < n + 1, walk M.space ((dst + k) % 2 ^ 32) = some (place k))
    (hcopy : memcpy M dst src (n + 1) = some M') :
    ∃ b M₁, loadByte M (src % 2 ^ 32) = some b ∧ M₁.space = M.space ∧
      M₁.phys = Function.update M.phys (place 0) b ∧
      memcpy M₁ (dst + 1) (src + 1) n = some M' ∧
      ∀ k < n, walk M₁.space ((dst + 1 + k) % 2 ^ 32) = some (place (k + 1)) := by
  obtain ⟨b, hb, hrest⟩ := Option.bind_eq_some_iff.mp hcopy
  obtain ⟨M₁, hfirst, hrest⟩ := Option.bind_eq_some_iff.mp hrest
  obtain ⟨a, ha, rfl⟩ := Option.map_eq_some_iff.mp hfirst
  obtain rfl : a = place 0 := Option.some.inj (ha.symm.trans (hwalk 0 (Nat.succ_pos n)))
  refine ⟨b, { M with phys := Function.update M.phys (place 0) b }, hb, rfl, rfl, hrest,
    fun k hk => ?_⟩
  rw [show dst + 1 + k = dst + (k + 1) by omega]
  exact hwalk (k + 1) (Nat.succ_lt_succ hk)

theorem later_ne (hinj : ∀ j < n + 1, ∀ k < n + 1, place j = place k → j = k) :
    ∀ k < n, place 0 ≠ place (k + 1) := fun k hk he =>
  absurd (hinj 0 (Nat.succ_pos n) (k + 1) (Nat.succ_lt_succ hk) he) (Nat.succ_ne_zero k).symm

theorem later_injective (hinj : ∀ j < n + 1, ∀ k < n + 1, place j = place k → j = k) :
    ∀ j < n, ∀ k < n, place (j + 1) = place (k + 1) → j = k := fun j hj k hk he =>
  Nat.succ.inj (hinj (j + 1) (Nat.succ_lt_succ hj) (k + 1) (Nat.succ_lt_succ hk) he)

include hwalk hcopy

theorem memcpy_outside (hx : ∀ k < n, x ≠ place k) : M'.phys x = M.phys x := by
  induction n generalizing M dst src place with
  | zero => rw [← Option.some.inj hcopy]
  | succ n ih =>
    obtain ⟨b, M₁, -, -, hphys, hrest, hwalk'⟩ := memcpy_succ hwalk hcopy
    rw [ih hwalk' hrest fun k hk => hx (k + 1) (Nat.succ_lt_succ hk), hphys,
      Function.update_of_ne (hx 0 (Nat.succ_pos n))]

theorem memcpy_read (hinj : ∀ j < n, ∀ k < n, place j = place k → j = k) {t : ℕ} (ht : t < n)
    (hsrc : walk M.space ((src + t) % 2 ^ 32) = some x) (hx : ∀ k < t, x ≠ place k) :
    M'.phys (place t) = M.phys x := by
  induction n generalizing M dst src place t with
  | zero => cases ht
  | succ n ih =>
    obtain ⟨b, M₁, hb, hspace, hphys, hrest, hwalk'⟩ := memcpy_succ hwalk hcopy
    cases t with
    | zero =>
      rw [loadByte, show walk M.space (src % 2 ^ 32) = some x from hsrc] at hb
      rw [memcpy_outside hwalk' hrest (later_ne hinj), hphys, Function.update_self]
      exact (Option.some.inj hb).symm
    | succ t =>
      have hsrc' : walk M₁.space ((src + 1 + t) % 2 ^ 32) = some x := by
        rw [hspace, show src + 1 + t = src + (t + 1) by omega]
        exact hsrc
      rw [ih hwalk' hrest (later_injective hinj) (Nat.lt_of_succ_lt_succ ht) hsrc'
        fun k hk => hx (k + 1) (Nat.succ_lt_succ hk), hphys,
        Function.update_of_ne (hx 0 (Nat.succ_pos t))]

theorem memcpy_overlap (hinj : ∀ j < n, ∀ k < n, place j = place k → j = k) {j t : ℕ} (hj : j < t)
    (ht : t < n) (hsrc : walk M.space ((src + t) % 2 ^ 32) = some (place j)) :
    M'.phys (place t) = M'.phys (place j) := by
  induction n generalizing M dst src place j t with
  | zero => cases ht
  | succ n ih =>
    obtain ⟨b, M₁, -, hspace, -, hrest, hwalk'⟩ := memcpy_succ hwalk hcopy
    obtain ⟨t, rfl⟩ := Nat.exists_eq_succ_of_ne_zero (Nat.ne_zero_of_lt hj)
    have ht' := Nat.lt_of_succ_lt_succ ht
    have hsrc' : walk M₁.space ((src + 1 + t) % 2 ^ 32) = some (place j) := by
      rw [hspace, show src + 1 + t = src + (t + 1) by omega]
      exact hsrc
    cases j with
    | zero =>
      have hlater := later_ne hinj
      rw [memcpy_read hwalk' hrest (later_injective hinj) ht' hsrc' fun k hk => hlater k (by omega),
        memcpy_outside hwalk' hrest hlater]
    | succ j => exact ih hwalk' hrest (later_injective hinj) (Nat.lt_of_succ_lt_succ hj) ht' hsrc'

end Overlap

end Bingos.Mmap
