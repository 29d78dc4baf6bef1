import Bingos.DirectoryClone

set_option autoImplicit false

/-! A cloned directory shares the kernel's tables and nothing else: its other
pages hold the same bytes in frames of their own. -/
namespace Bingos.Mmap
open MachineWords Frames ByteMemory

/-- The paging structures as the processor finds them: the entries at a physical address that
`cr3` can hold, and the table in a page of physical memory. -/
structure Walker where
  entriesAt : ℕ → Option (ℕ → Entry)
  tableAt : ℕ → Option ℕ

/-- A directory is put into a block at the physical address `phys`, its entries one page further. -/
def Walker.place (w : Walker) (phys : ℕ) (d : PageDir) : Walker :=
  { w with entriesAt := Function.update w.entriesAt (add32 phys 4096) (some d.entries) }

theorem Walker.place_entriesAt (w : Walker) (phys : ℕ) (d : PageDir) (a : ℕ) :
    (w.place phys d).entriesAt a =
      if a = add32 phys 4096 then some d.entries else w.entriesAt a := by
  simp only [Walker.place, Function.update_apply]

def translate (w : Walker) (s : Space) (cr3 virt : ℕ) : Option ℕ :=
  (w.entriesAt cr3).bind fun entries =>
    let e := entries (pageDirectoryIndex virt)
    if e.present then
      (w.tableAt e.addr).bind fun t =>
        let p := readPage s ⟨t, pageTableIndex virt⟩
        if p.present then some (frameByte p.addr (virt % 0x1000)) else none
    else none

def readByte (w : Walker) (M : Machine) (d : PageDir) (virt : ℕ) : Option UInt8 :=
  (translate w M.space d.physical virt).map M.phys

def writeByte (w : Walker) (M : Machine) (d : PageDir) (virt : ℕ) (b : UInt8) : Machine :=
  match translate w M.space d.physical virt with
  | none => M
  | some a => { M with phys := Function.update M.phys a b }

/-- `physical` leads to the entries of the directory, and these to the tables in `tabls`. -/
structure Wired (w : Walker) (d : PageDir) : Prop where
  loaded : w.entriesAt d.physical = some d.entries
  table : ∀ i < 1024, ∀ t, d.tabls i = some t →
    (d.entries i).present = true ∧ w.tableAt (d.entries i).addr = some t
  absent : ∀ i < 1024, d.tabls i = none → (d.entries i).present = false

/-- The address lies in a table the directory does not share with the kernel. -/
def Private (kernelPd d : PageDir) (virt : ℕ) : Prop :=
  (ownTable kernelPd d (pageDirectoryIndex virt)).isSome

/-- The directory and its frames before a fork. The tables of both directories are in kernel
memory, where the heap finds other room for the new ones and for the new directory, and gives the
physical addresses of these blocks. -/
structure Forkable (w : Walker) (kmalloc physaddr : ℕ → ℕ) (phys : ℕ) (kernelPd src : PageDir)
    (M : Machine) : Prop where
  backed : ∀ i t, src.tabls i = some t → (M.space.tables t).isSome
  kernel : ∀ i t, kernelPd.tabls i = some t → (M.space.tables t).isSome
  wired : Wired w src
  unused : ∀ i, M.space.tables (kmalloc i) = none
  injective : Function.Injective kmalloc
  pages : ∀ i, w.tableAt (physaddr (kmalloc i) / 2 ^ 12) = some (kmalloc i)
  apart : src.physical ≠ add32 phys 4096
  word : M.space.frames.maxFrames < 2 ^ 32
  field : ∀ r, (readPage M.space r).addr < 2 ^ 20
  zero : bitmapTest M.space.frames 0 = true
  marked : ∀ i t j, src.tabls i = some t → i < 1024 → j < 1024 →
    bitmapTest M.space.frames (readPage M.space ⟨t, j⟩).addr = true
  enough : (ownFrames kernelPd src M.space).length ≤ (room M.space.frames).card

/-- The clone `dir` of `src` in the state `M'` after the fork from `M`, with the new directory in
its block. -/
structure Isolated (w : Walker) (kernelPd src : PageDir) (M : Machine) (dir : PageDir)
    (M' : Machine) : Prop where
  wired : Wired w dir
  sourceWired : Wired w src
  absent : ∀ i < 1024, src.tabls i = none → dir.tabls i = none
  shared : ∀ i < 1024, ∀ t, src.tabls i = some t → kernelPd.tabls i = some t →
    dir.tabls i = some t ∧ dir.entries i = src.entries i
  copied : ∀ i < 1024, ∀ t, src.tabls i = some t → kernelPd.tabls i ≠ some t →
    ∃ t', dir.tabls i = some t' ∧ kernelPd.tabls i ≠ some t' ∧ (dir.entries i).rw = true ∧
      (dir.entries i).user = true ∧ ∀ j < 1024,
      let p := readPage M.space ⟨t, j⟩
      let q := readPage M'.space ⟨t', j⟩
      (q.addr = 0 ↔ p.addr = 0) ∧ (p.addr ≠ 0 →
        load M'.phys (frameByte q.addr 0) 4096 = load M.phys (frameByte p.addr 0) 4096)
  source : ∀ i < 1024, ∀ t, src.tabls i = some t → M'.space.tables t = M.space.tables t ∧
    ∀ j < 1024, load M'.phys (frameByte (readPage M.space ⟨t, j⟩).addr 0) 4096 =
      load M.phys (frameByte (readPage M.space ⟨t, j⟩).addr 0) 4096
  distinct : (ownFrames kernelPd dir M'.space).Nodup
  fresh : ∀ f ∈ ownFrames kernelPd dir M'.space, bitmapTest M.space.frames f = false ∧
    bitmapTest M'.space.frames f = true ∧
    ∀ i < 1024, ∀ t, src.tabls i = some t → ∀ j < 1024, (readPage M.space ⟨t, j⟩).addr ≠ f
  sourceUnseen : ∀ virt virt' b, Private kernelPd dir virt →
    readByte w (writeByte w M' dir virt b) src virt' = readByte w M' src virt'
  -- a shared page shows a write to a source page only where `src` itself maps both to one byte
  cloneUnseen : ∀ virt virt' b, Private kernelPd src virt →
    (Private kernelPd dir virt' ∨
      translate w M'.space src.physical virt' ≠ translate w M'.space src.physical virt) →
    readByte w (writeByte w M' src virt b) dir virt' = readByte w M' dir virt'

variable {M : Machine} {kernelPd : PageDir} {phys virt : ℕ}

theorem pageDirClone_spec {kmalloc : ℕ → ℕ} {src : PageDir}
    (physaddr : ℕ → ℕ) (phys : ℕ) (hk : Allocatable kmalloc src M.space (List.range 1024))
    (hzero : bitmapTest M.space.frames 0 = true) (hmax : M.space.frames.maxFrames < 2 ^ 32)
    (hroom : (ownFrames kernelPd src M.space).length ≤ (room M.space.frames).card) :
    ∃ dir M', pageDirClone kmalloc physaddr phys kernelPd src M = some (dir, M') ∧
      SlotsCloned kmalloc kernelPd src physaddr (List.range 1024)
        (⟨fun _ => none, fun _ => Entry.zero, add32 phys 4096⟩, M) (dir, M') := by
  obtain ⟨st, hloop, h⟩ := cloneSlots_spec physaddr kernelPd (List.range 1024)
    (⟨fun _ => none, fun _ => Entry.zero, add32 phys 4096⟩, M) List.nodup_range hk
    (fun _ _ => rfl) hzero hmax hroom
  exact ⟨st.1, st.2, hloop, h⟩

variable {d : PageDir} {s : Space} {w : Walker} {a : ℕ}

section Cloned

variable {kmalloc physaddr : ℕ → ℕ} {src dir : PageDir} {M' : Machine}

theorem ownTable_clone
    (h : SlotsCloned kmalloc kernelPd src physaddr (List.range 1024) (d, M) (dir, M'))
    (hkernel : ∀ i, kernelPd.tabls i ≠ some (kmalloc i)) {i : ℕ} (hi : i < 1024) :
    ownTable kernelPd dir i = (ownTable kernelPd src i).map fun _ => kmalloc i := by
  cases hown : ownTable kernelPd src i with
  | none =>
    have hsame := (h.shared i (List.mem_range.mpr hi) hown).1
    rw [Option.map_none, ownTable_eq_none]
    rw [ownTable_eq_none] at hown
    rwa [← hsame] at hown
  | some t =>
    have hslot := (h.own i (List.mem_range.mpr hi) t hown).1
    exact ownTable_eq_some.mpr ⟨hslot, hkernel i⟩

theorem ownFrames_clone
    (h : SlotsCloned kmalloc kernelPd src physaddr (List.range 1024) (d, M) (dir, M'))
    (hkernel : ∀ i, kernelPd.tabls i ≠ some (kmalloc i)) :
    ownFrames kernelPd dir M'.space = ((List.range 1024).flatMap
      (slotPairs kmalloc kernelPd src M.space M'.space)).map Prod.snd := by
  rw [ownFrames, List.map_flatMap]
  refine List.flatMap_congr fun i hi => ?_
  rw [slotFrames, slotPairs, ownTable_clone h hkernel (List.mem_range.mp hi)]
  cases hown : ownTable kernelPd src i with
  | none => simp only [Option.map_none, Option.elim_none, List.map_nil]
  | some t =>
    have hcopy := (h.own i hi t hown).2.1
    have hpages : framedPages M'.space (kmalloc i) (List.range 1024) =
        framedPages M.space t (List.range 1024) := by
      refine List.filter_congr fun j hj => ?_
      exact decide_eq_decide.mpr (hcopy.addr_eq_zero_iff (List.mem_range.mp hj)).not
    simp only [Option.map_some, Option.elim_some, hpages, pagePairs, List.map_map,
      Function.comp_def]

theorem mem_slotPairs {s' : Space} {p : ℕ × ℕ} :
    p ∈ (List.range 1024).flatMap (slotPairs kmalloc kernelPd src s s') ↔
      ∃ i t j, i < 1024 ∧ j < 1024 ∧ ownTable kernelPd src i = some t ∧
        (readPage s ⟨t, j⟩).addr ≠ 0 ∧
        p = ((readPage s ⟨t, j⟩).addr, (readPage s' ⟨kmalloc i, j⟩).addr) := by
  rw [List.mem_flatMap]
  constructor
  · rintro ⟨i, hi, hp⟩
    unfold slotPairs at hp
    cases hown : ownTable kernelPd src i with
    | none => simp [hown] at hp
    | some t =>
      rw [hown, Option.elim_some, pagePairs, List.mem_map] at hp
      obtain ⟨j, hj, rfl⟩ := hp
      obtain ⟨hj, hne⟩ := mem_framedPages.mp hj
      exact ⟨i, t, j, List.mem_range.mp hi, List.mem_range.mp hj, hown, hne, rfl⟩
  · rintro ⟨i, t, j, hi, hj, hown, hne, rfl⟩
    refine ⟨i, List.mem_range.mpr hi, ?_⟩
    rw [slotPairs, hown, Option.elim_some, pagePairs, List.mem_map]
    exact ⟨j, mem_framedPages.mpr ⟨List.mem_range.mpr hj, hne⟩, rfl⟩

theorem clone_apart (hfield : ∀ r, (readPage M.space r).addr < 2 ^ 20)
    (hmarked : ∀ i t j, src.tabls i = some t → i < 1024 → j < 1024 →
      bitmapTest M.space.frames (readPage M.space ⟨t, j⟩).addr = true)
    (h : SlotsCloned kmalloc kernelPd src physaddr (List.range 1024) (d, M) (dir, M')) :
    Apart ((List.range 1024).flatMap (slotPairs kmalloc kernelPd src M.space M'.space)) := by
  refine ⟨?_, ?_, ?_, h.allocs.nodup⟩
  · intro p hp
    obtain ⟨i, t, j, -, -, -, -, rfl⟩ := mem_slotPairs.mp hp
    exact hfield _
  · intro p hp
    obtain ⟨i, t, j, hi, hj, hown, hne, rfl⟩ := mem_slotPairs.mp hp
    exact ((h.own i (List.mem_range.mpr hi) t hown).2.1.framed j hj hne).2
  · intro p hp q hq he
    obtain ⟨i, t, j, hi, hj, hown, -, rfl⟩ := mem_slotPairs.mp hp
    have hfree := h.allocs.fresh (List.mem_map_of_mem (f := Prod.snd) hq)
    rw [← he, hmarked i t j (ownTable_eq_some.mp hown).1 hi hj] at hfree
    cases hfree

/-- The entries of the clone lead to its tables: those of the source where it shares them, and the
new ones where it does not. -/
theorem clone_wired (hsrc : Wired w src)
    (hpages : ∀ i, w.tableAt (physaddr (kmalloc i) / 2 ^ 12) = some (kmalloc i))
    (h : SlotsCloned kmalloc kernelPd src physaddr (List.range 1024)
      (⟨fun _ => none, fun _ => Entry.zero, add32 phys 4096⟩, M) (dir, M')) :
    Wired (w.place phys dir) dir := by
  refine ⟨?_, fun i hi t ht => ?_, fun i hi hnone => ?_⟩
  · have hphysical : dir.physical = add32 phys 4096 := h.physical
    rw [Walker.place_entriesAt, if_pos hphysical]
  · change _ ∧ w.tableAt _ = _
    cases hown : ownTable kernelPd src i with
    | some t' =>
      obtain ⟨hslot, -, hentry⟩ := h.own i (List.mem_range.mpr hi) t' hown
      obtain rfl : kmalloc i = t := Option.some.inj (hslot.symm.trans ht)
      have hentry : dir.entries i = ⟨true, true, true, physaddr (kmalloc i) / 2 ^ 12⟩ := hentry
      rw [hentry]
      exact ⟨rfl, hpages i⟩
    | none =>
      obtain ⟨hslot, hentry⟩ := h.shared i (List.mem_range.mpr hi) hown
      have ht' : src.tabls i = some t := hslot.symm.trans ht
      rw [if_neg (by rw [ht']; exact Option.some_ne_none t)] at hentry
      have hentry : dir.entries i = src.entries i := hentry
      rw [hentry]
      exact hsrc.table i hi t ht'
  · cases hown : ownTable kernelPd src i with
    | some t' =>
      have hslot : dir.tabls i = some (kmalloc i) := (h.own i (List.mem_range.mpr hi) t' hown).1
      rw [hnone] at hslot
      cases hslot
    | none =>
      obtain ⟨hslot, hentry⟩ := h.shared i (List.mem_range.mpr hi) hown
      rw [if_pos (hslot.symm.trans hnone)] at hentry
      have hentry : dir.entries i = Entry.zero := hentry
      rw [hentry]
      rfl

theorem Wired.place (h : Wired w src) (dir : PageDir)
    (hapart : src.physical ≠ add32 phys 4096) : Wired (w.place phys dir) src := by
  refine ⟨?_, h.table, h.absent⟩
  rw [Walker.place_entriesAt, if_neg hapart]
  exact h.loaded

end Cloned

theorem load_frame {m m' : Memory} {f g : ℕ} (hf : f < 2 ^ 20) (hg : g < 2 ^ 20)
    (h : ∀ k < 0x1000, m (frameByte f k) = m' (frameByte g k)) :
    load m (frameByte f 0) 4096 = load m' (frameByte g 0) 4096 := by
  refine List.map_congr_left fun k hk => ?_
  have hk := List.mem_range.mp hk
  have hword : ∀ e < 2 ^ 20, (frameByte e 0 + k) % 2 ^ 32 = frameByte e k := by
    intro e he
    unfold frameByte
    omega
  rw [hword f hf, hword g hg, h k hk]

theorem readByte_update {virt' : ℕ} (b : UInt8)
    (h : translate w M.space d.physical virt' ≠ some a) :
    readByte w { M with phys := Function.update M.phys a b } d virt' = readByte w M d virt' := by
  unfold readByte
  cases ht : translate w M.space d.physical virt' with
  | none => rfl
  | some a' =>
    have hne : a' ≠ a := by
      rintro rfl
      exact h ht
    simp only [Option.map_some, Function.update_of_ne hne]

theorem pageDirectoryIndex_lt (virt : ℕ) : pageDirectoryIndex virt < 1024 :=
  Nat.mod_lt _ (by decide)

theorem pageTableIndex_lt (virt : ℕ) : pageTableIndex virt < 1024 :=
  Nat.mod_lt _ (by decide)

theorem translate_wired (h : Wired w d) (s : Space) (virt : ℕ) :
    translate w s d.physical virt = (d.tabls (pageDirectoryIndex virt)).bind fun t =>
      if (readPage s ⟨t, pageTableIndex virt⟩).present then
        some (frameByte (readPage s ⟨t, pageTableIndex virt⟩).addr (virt % 0x1000))
      else none := by
  have hlt := pageDirectoryIndex_lt virt
  rw [translate, h.loaded, Option.bind_some]
  cases ht : d.tabls (pageDirectoryIndex virt) with
  | none =>
    dsimp only
    rw [if_neg (by rw [h.absent _ hlt ht]; exact Bool.false_ne_true)]
    rfl
  | some t =>
    obtain ⟨hpresent, htable⟩ := h.table _ hlt t ht
    dsimp only
    rw [if_pos hpresent, htable, Option.bind_some]

theorem translate_eq_some (hd : Wired w d)
    (h : translate w s d.physical virt = some a) : ∃ t, d.tabls (pageDirectoryIndex virt) = some t ∧
      (readPage s ⟨t, pageTableIndex virt⟩).present = true ∧
      a = frameByte (readPage s ⟨t, pageTableIndex virt⟩).addr (virt % 0x1000) := by
  rw [translate_wired hd] at h
  obtain ⟨t, ht, hpage⟩ := Option.bind_eq_some_iff.mp h
  split_ifs at hpage with hpresent
  exact ⟨t, ht, hpresent, (Option.some.inj hpage).symm⟩

theorem frameByte_div (f virt : ℕ) : frameByte f (virt % 0x1000) / 0x1000 = f := by
  unfold frameByte
  omega

/-- A byte behind a private address lies in one of the directory's own frames, if its own pages
are not present without a frame. -/
theorem private_mem_ownFrames
    (hd : Wired w d) (hframes : ∀ i < 1024, ∀ t, ownTable kernelPd d i = some t → ∀ j < 1024,
      (readPage s ⟨t, j⟩).present = true → (readPage s ⟨t, j⟩).addr ≠ 0)
    (hv : Private kernelPd d virt) (h : translate w s d.physical virt = some a) :
    a / 0x1000 ∈ ownFrames kernelPd d s := by
  obtain ⟨t, ht, hpresent, rfl⟩ := translate_eq_some hd h
  obtain ⟨t', hown⟩ := Option.isSome_iff_exists.mp hv
  obtain rfl : t = t' := Option.some.inj (ht.symm.trans (ownTable_eq_some.mp hown).1)
  have hdir := pageDirectoryIndex_lt virt
  have htable := pageTableIndex_lt virt
  refine List.mem_flatMap.mpr ⟨_, List.mem_range.mpr hdir, ?_⟩
  rw [slotFrames, hown, Option.elim_some, frameByte_div]
  exact List.mem_map.mpr ⟨pageTableIndex virt, mem_framedPages.mpr
    ⟨List.mem_range.mpr htable, hframes _ hdir t hown _ htable hpresent⟩, rfl⟩

/-- A process with one page at 0x20000000, on frame 1, next to a kernel table;
the frames marked used are given by `bits`, of the four there are. -/
def forking (bits : BitVec 32) : Machine where
  space :=
    { frames := ⟨fun k => if k = 0 then bits else 0, 2, 4⟩
      tables := fun t =>
        if t = 1 then some fun _ => Page.zero
        else if t = 2 then some fun j => if j = 0 then mappedPage false true 1 else Page.zero
        else none
      tabls := fun _ => none
      mmap := [] }
  phys := fun a => UInt8.ofNat a

def kernelDir : PageDir := ⟨fun i => if i = 0 then some 1 else none, fun _ => Entry.zero, 0⟩

def forkedDir : PageDir where
  tabls i := if i = 0 then some 1 else if i = 128 then some 2 else none
  entries i :=
    if i = 0 then ⟨true, true, true, 1⟩ else if i = 128 then ⟨true, true, true, 2⟩ else Entry.zero
  physical := 0x9000

/-- The table `t` lies in page `t`, and the directory in the block before its entries. -/
def forkedWalker : Walker :=
  ⟨fun a => if a = 0x9000 then some forkedDir.entries else none, some⟩

theorem forking_addr (bits : BitVec 32) (r : PageRef) :
    (readPage (forking bits).space r).addr = if r = ⟨2, 0⟩ then 1 else 0 := by
  obtain ⟨t, j⟩ := r
  by_cases h1 : t = 1
  · simp [readPage, forking, h1, Page.zero]
  · by_cases h2 : t = 2
    · by_cases hj : j = 0
      · simp [readPage, forking, h2, hj, mappedPage]
      · simp [readPage, forking, h2, hj, Page.zero]
    · simp [readPage, forking, h1, h2, Page.zero]

theorem forking_ownFrames (bits : BitVec 32) :
    ownFrames kernelDir forkedDir (forking bits).space = [1] := by
  have hslot : ∀ i, slotFrames kernelDir forkedDir (forking bits).space i =
      if i = 128 then [1] else [] := by
    intro i
    by_cases hi : i = 128
    · subst hi
      have hown : ownTable kernelDir forkedDir 128 = some 2 := by decide
      have hpages : framedPages (forking bits).space 2 (List.range 1024) = [0] := by
        simp only [framedPages, forking_addr]
        decide +kernel
      rw [slotFrames, hown, Option.elim_some, hpages, List.map_singleton, forking_addr]
      rfl
    · have hown : ownTable kernelDir forkedDir i = none := by
        by_cases h0 : i = 0
        · subst h0
          rfl
        · simp [ownTable, kernelDir, forkedDir, hi, h0]
      rw [slotFrames, hown, Option.elim_none, if_neg hi]
  rw [ownFrames, funext hslot]
  decide +kernel

theorem forkedDir_wired : Wired forkedWalker forkedDir := by
  refine ⟨rfl, fun i _ t ht => ?_, fun i _ hnone => ?_⟩
  · change (if i = 0 then some 1 else if i = 128 then some 2 else none) = some t at ht
    change (Entry.present (if i = 0 then _ else if i = 128 then _ else _)) = true ∧
      some (Entry.addr (if i = 0 then _ else if i = 128 then _ else _)) = some t
    split_ifs at ht ⊢ <;> cases ht <;> exact ⟨rfl, rfl⟩
  · change (if i = 0 then some 1 else if i = 128 then some 2 else none) = none at hnone
    change Entry.present (if i = 0 then _ else if i = 128 then _ else _) = false
    split_ifs at hnone ⊢
    rfl

theorem forking_forkable : Forkable forkedWalker (fun i => i + 3) (fun t => t * 2 ^ 12) 0x2000
    kernelDir forkedDir (forking 3#32) := by
  refine ⟨?_, ?_, forkedDir_wired, ?_, ?_, ?_, by decide, by decide, ?_, by decide, ?_, ?_⟩
  · intro i t h
    simp only [forkedDir] at h
    split_ifs at h <;> cases h <;> rfl
  · intro i t h
    simp only [kernelDir] at h
    split_ifs at h
    cases h
    rfl
  · intro i
    simp [forking]
  · exact fun a b h => Nat.add_right_cancel h
  · intro i
    exact congrArg some (Nat.mul_div_cancel _ (by decide))
  · intro r
    rw [forking_addr]
    split_ifs <;> decide
  · intro i t j _ _ _
    rw [forking_addr]
    split_ifs <;> decide
  · rw [forking_ownFrames]
    decide

end Bingos.Mmap
