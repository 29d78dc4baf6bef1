import Bingos.Ext2DirectoryModel

set_option autoImplicit false
set_option maxRecDepth 4096

/-! The entries of a directory, and which of them `ext2_direntry` returns. -/
namespace Bingos.Ext2
open CStrings ByteMemory MachineWords

structure DirEntry where
  inode : ℕ
  name : Bytes
  record : Bytes

def entryAt (b : Region) (o : ℕ) : DirEntry where
  inode := entryInode b o
  name := bytesAt b (o + 8) (entryNameLen b o)
  record := bytesAt b o (entryRecLen b o)

/-- The entries from an offset of a block on, which end where the block ends. -/
inductive Chain (b : Region) : ℕ → List DirEntry → Prop
  | done : Chain b 1024 []
  | entry {o : ℕ} {es : List DirEntry} (header : o + 8 ≤ 1024) (advance : 0 < entryRecLen b o)
      (rest : Chain b (o + entryRecLen b o) es) : Chain b o (entryAt b o :: es)

def live (es : List DirEntry) : List DirEntry := es.filter fun e => e.inode ≠ 0

def stored (disk : Region) (block : ℕ) : Region := fun o => disk (block * 1024 + o)

/-- A block as `ext2_read_block` delivers it: its position is a 32-bit number. -/
def delivered (disk : Region) (block : ℕ) : Region := fun o => disk (block * 1024 % 2 ^ 32 + o)

def Holds (view : ℕ → Region) (inode : Region) : ℕ → List (List DirEntry) → Prop
  | _, [] => True
  | k, es :: ess => iBlock inode k ≠ 0 ∧ Chain (view (iBlock inode k)) 0 es ∧
      Holds view inode (k + 1) ess

variable {e : DirEntry} {ess : List (List DirEntry)} {b inode disk : Region}
  {k n block fuel j start : ℕ} {view : ℕ → Region}

section Blocks
variable {buf : Region} {o : ℕ} {es : List DirEntry}

theorem Chain.le (h : Chain b o es) : o ≤ 1024 := by
  cases h with
  | done => exact le_rfl
  | entry header advance rest => omega

theorem Chain.eq_nil (h : Chain b 1024 es) : es = [] := by
  cases h with
  | done => rfl
  | entry header advance rest => omega

theorem live_cons_of_ne (h : e.inode ≠ 0) : live (e :: es) = e :: live es :=
  List.filter_cons_of_pos (by simpa using h)

theorem live_cons_of_eq (h : e.inode = 0) : live (e :: es) = live es :=
  List.filter_cons_of_neg (by simpa using h)

theorem live_append (es es' : List DirEntry) : live (es ++ es') = live es ++ live es' :=
  List.filter_append es es'

theorem bytesAt_congr (h : ∀ i < n, buf (start + i) = b (start + i)) :
    bytesAt buf start n = bytesAt b start n :=
  List.map_congr_left fun i hi => h i (List.mem_range.mp hi)

theorem length_bytesAt (start n : ℕ) : (bytesAt b start n).length = n := by
  rw [bytesAt, List.length_map, List.length_range]

theorem field_lt (start w : ℕ) : field b start w < 256 ^ w := by
  have h := ofLE_lt ((List.range w).map fun i => b (start + i))
  rwa [List.length_map, List.length_range] at h

def Loaded (buf b : Region) : Prop := ∀ i < 1024, buf i = b i

variable (h : Loaded buf b)
include h

theorem Loaded.entryInode (ho : o + 8 ≤ 1024) : entryInode buf o = entryInode b o :=
  field_congr fun i hi => h _ (by omega)

theorem Loaded.entryRecLen (ho : o + 8 ≤ 1024) : entryRecLen buf o = entryRecLen b o :=
  field_congr fun i hi => h _ (by omega)

theorem Loaded.entryNameLen (ho : o + 8 ≤ 1024) : entryNameLen buf o = entryNameLen b o :=
  field_congr fun i hi => h _ (by omega)

theorem Loaded.bytesAt (hin : start + n ≤ 1024) :
    bytesAt buf start n = bytesAt b start n :=
  bytesAt_congr fun i hi => h _ (by omega)

end Blocks

theorem loaded_block (buf : Region) (hk : k < 12) (hne : iBlock inode k ≠ 0) :
    Loaded (ext2InodeReadBlock inode disk k buf) (delivered disk (iBlock inode k)) := by
  intro i hi
  have hin : 0 ≤ i ∧ i < 0 + 1024 := by omega
  have hpos : 1024 + (iBlock inode k - 1) * 1024 = iBlock inode k * 1024 := by omega
  rw [ext2InodeReadBlock, ext2GetBlockNumber, ext2DirectBlocks, if_pos hk, ext2ReadBlock, if_neg hne]
  simp only [if_pos hin, hpos, delivered, Nat.sub_zero]

section Enumeration
variable {fs : Ext2Fs} {index : ℕ}

section Pass

variable (hfs : fs.blockSize = 1024) (hindex : index < 2 ^ 32)
include hfs hindex

/-- One block: the entry asked for, or the state at the start of the next block. -/
theorem direntryLoop_block {buf : Region}
    (hbuf : Loaded buf b) {o : ℕ} {es : List DirEntry} (hes : Chain b o es) (ho : o < 1024)
    (fuel k : ℕ) {total : ℕ} (hsize : total + (1024 - o) ≤ iSize inode) (hj : j ≤ index) :
    direntryLoop fs disk inode index (es.length + fuel) buf k o total j =
      ((live es)[index - j]?).elim
        (direntryLoop fs disk inode index fuel (ext2InodeReadBlock inode disk (k + 1) buf) (k + 1) 0
          (total + (1024 - o)) (j + (live es).length))
        fun e => some (some e.record) := by
  have hlt : iSize inode < 2 ^ 32 := field_lt 4 4
  induction hes generalizing total j with
  | done => omega
  | @entry o es header advance rest ih =>
    have hend := rest.le
    have hround : total < iSize inode ∧ j ≤ index := ⟨by omega, hj⟩
    have hoff : add32 o (entryRecLen b o) = o + entryRecLen b o := add32_of_lt (by omega)
    have htotal : add32 total (entryRecLen b o) = total + entryRecLen b o := add32_of_lt (by omega)
    rw [List.length_cons, Nat.add_right_comm, direntryLoop, if_pos hround]
    simp only [hbuf.entryInode header, hbuf.entryRecLen header, hoff, htotal, hfs]
    by_cases hfound : entryInode b o ≠ 0 ∧ j = index
    · rw [if_pos hfound, live_cons_of_ne hfound.1, hfound.2, Nat.sub_self, List.getElem?_cons_zero,
        Option.elim_some, hbuf.bytesAt hend]
      rfl
    · rw [if_neg hfound]
      -- The index moves on over live entries only.
      have hstep : ∃ j', (if entryInode b o ≠ 0 then add32 j 1 else j) = j' ∧ j' ≤ index ∧
          (live (entryAt b o :: es))[index - j]? = (live es)[index - j']? ∧
          j + (live (entryAt b o :: es)).length = j' + (live es).length := by
        by_cases hlive : entryInode b o ≠ 0
        · have hne : j ≠ index := fun heq => hfound ⟨hlive, heq⟩
          have hsub : index - j = index - (j + 1) + 1 := by omega
          refine ⟨j + 1, ?_, by omega, ?_, ?_⟩
          · rw [if_pos hlive, add32_of_lt (by omega)]
          · rw [live_cons_of_ne hlive, hsub, List.getElem?_cons_succ]
          · rw [live_cons_of_ne hlive, List.length_cons]
            omega
        · have hdead : (entryAt b o).inode = 0 := Decidable.not_not.mp hlive
          exact ⟨j, if_neg hlive, hj, by rw [live_cons_of_eq hdead], by rw [live_cons_of_eq hdead]⟩
      obtain ⟨j', hj', hle, hget, hlen⟩ := hstep
      rw [hj', hget, hlen]
      by_cases hlast : 1024 ≤ o + entryRecLen b o
      · have heq : o + entryRecLen b o = 1024 := by omega
        rw [heq] at rest
        have htotal' : total + entryRecLen b o = total + (1024 - o) := by omega
        rw [if_pos hlast, rest.eq_nil, heq, htotal', sub32_of_le (by decide) le_rfl]
        simp only [live, List.filter_nil, List.getElem?_nil, Option.elim_none, List.length_nil,
          Nat.zero_add, Nat.add_zero, Nat.sub_self]
      · have htotal' : total + entryRecLen b o + (1024 - (o + entryRecLen b o)) =
            total + (1024 - o) := by omega
        rw [if_neg hlast, ih (by omega) (by omega) hle, htotal']

/-- Blocks from the `k`-th on: the entry asked for, or the state behind them. -/
theorem direntryLoop_blocks (hess : Holds (delivered disk) inode k ess) (hlen : k + ess.length ≤ 12)
    (hsize : (k + ess.length) * 1024 ≤ iSize inode) (buf : Region) (hj : j ≤ index) (fuel : ℕ) :
    ∃ buf', direntryLoop fs disk inode index (ess.flatten.length + fuel)
        (ext2InodeReadBlock inode disk k buf) k 0 (k * 1024) j =
      ((live ess.flatten)[index - j]?).elim
        (direntryLoop fs disk inode index fuel
          (ext2InodeReadBlock inode disk (k + ess.length) buf') (k + ess.length) 0
          ((k + ess.length) * 1024) (j + (live ess.flatten).length))
        fun e => some (some e.record) := by
  induction ess generalizing k buf j with
  | nil =>
    refine ⟨buf, ?_⟩
    rw [List.flatten_nil, List.length_nil, Nat.zero_add]
    rfl
  | cons es ess ih =>
    obtain ⟨hne, hes, hrest⟩ := hess
    rw [List.length_cons] at hlen hsize
    have hnext : k * 1024 + (1024 - 0) = (k + 1) * 1024 := by omega
    have hcount : k + (es :: ess).length = k + 1 + ess.length := by
      rw [List.length_cons]
      omega
    rw [List.flatten_cons, List.length_append, Nat.add_assoc,
      direntryLoop_block hfs hindex (loaded_block buf (by omega) hne) hes (by decide) _ k (by omega)
        hj, hnext, live_append, hcount]
    by_cases hin : index - j < (live es).length
    · rw [List.getElem?_append_left hin, List.getElem?_eq_getElem hin]
      exact ⟨buf, rfl⟩
    · obtain ⟨buf', hlater⟩ := ih hrest (by omega) (by omega)
        (ext2InodeReadBlock inode disk k buf) (show j + (live es).length ≤ index by omega)
      have hsub : index - j - (live es).length = index - (j + (live es).length) := by omega
      refine ⟨buf', ?_⟩
      rw [List.getElem?_append_right (by omega), List.getElem?_eq_none (by omega), Option.elim_none,
        hlater, hsub, List.length_append, Nat.add_assoc j]

theorem ext2Direntry_eq (hess : Holds (delivered disk) inode 0 ess) (hlen : ess.length ≤ 12)
    (hsize : iSize inode = ess.length * 1024) (heap : Region) (ino : ℕ)
    (hfuel : ess.flatten.length < fuel) :
    ext2Direntry fs disk heap inode fuel ino index =
      some ((live ess.flatten)[index]?.map DirEntry.record) := by
  obtain ⟨m, rfl⟩ := Nat.exists_eq_add_of_lt hfuel
  obtain ⟨buf', hrun⟩ := direntryLoop_blocks hfs hindex hess (by omega)
    (by rw [hsize, Nat.zero_add]) heap (Nat.zero_le index) (m + 1)
  rw [Nat.zero_mul, Nat.sub_zero, Nat.zero_add] at hrun
  rw [ext2Direntry, Nat.add_assoc, hrun]
  cases (live ess.flatten)[index]? with
  | none =>
    rw [Option.elim_none, direntryLoop, if_neg fun h => absurd h.1 (by omega)]
    rfl
  | some e => rfl

theorem ext2Direntry_found (hess : Holds (delivered disk) inode 0 ess) (hlen : ess.length ≤ 12)
    (hsize : ess.length * 1024 ≤ iSize inode) (heap : Region) (ino : ℕ)
    (he : (live ess.flatten)[index]? = some e) (hfuel : ess.flatten.length ≤ fuel) :
    ext2Direntry fs disk heap inode fuel ino index = some (some e.record) := by
  obtain ⟨m, rfl⟩ := Nat.exists_eq_add_of_le hfuel
  obtain ⟨buf', hrun⟩ := direntryLoop_blocks hfs hindex hess (by omega)
    (by rw [Nat.zero_add]; exact hsize) heap (Nat.zero_le index) m
  rw [Nat.zero_mul, Nat.sub_zero, he, Option.elim_some] at hrun
  exact hrun

end Pass

end Enumeration

theorem stored_eq_delivered (h : block < 2 ^ 22) :
    stored disk block = delivered disk block := by
  funext o
  rw [stored, delivered, Nat.mod_eq_of_lt (by omega)]

theorem Holds.congr {view' : ℕ → Region} (h : Holds view inode k ess)
    (hsame : ∀ i, k ≤ i → i < k + ess.length → view' (iBlock inode i) = view (iBlock inode i)) :
    Holds view' inode k ess := by
  induction ess generalizing k with
  | nil => trivial
  | cons es ess ih =>
    obtain ⟨hne, hes, hrest⟩ := h
    rw [List.length_cons] at hsame
    refine ⟨hne, ?_, ih hrest fun i hlo hhi => hsame i (by omega) (by omega)⟩
    rw [hsame k le_rfl (by omega)]
    exact hes

theorem Holds.map_range {f : ℕ → List DirEntry}
    (h : ∀ i, k ≤ i → i < k + n →
      iBlock inode i ≠ 0 ∧ Chain (view (iBlock inode i)) 0 (f i)) :
    Holds view inode k ((List.range' k n).map f) := by
  induction n generalizing k with
  | zero => trivial
  | succ n ih =>
    rw [List.range'_succ, List.map_cons]
    obtain ⟨hne, hchain⟩ := h k le_rfl (by omega)
    exact ⟨hne, hchain, ih fun i hlo hhi => h i (by omega) (by omega)⟩

section Probe

def entryBlock (ino c : UInt8) : Region := fun o =>
  if o = 0 then ino else if o = 5 then 4 else if o = 6 then 1 else if o = 8 then c else 0

def oneEntry (ino c : UInt8) : DirEntry where
  inode := ino.toNat
  name := [c]
  record := bytesAt (entryBlock ino c) 0 1024

theorem chain_oneEntry {ino c : UInt8} (h : Loaded b (entryBlock ino c)) :
    Chain b 0 [oneEntry ino c] := by
  have hino : entryInode b 0 = ino.toNat := (h.entryInode (by decide)).trans rfl
  have hlen : entryRecLen b 0 = 1024 := (h.entryRecLen (by decide)).trans rfl
  have hname : entryNameLen b 0 = 1 := (h.entryNameLen (by decide)).trans rfl
  have heq : entryAt b 0 = oneEntry ino c := by
    rw [entryAt, hino, hlen, hname, h.bytesAt (by decide), h.bytesAt (by decide)]
    rfl
  rw [← heq]
  apply Chain.entry (by decide)
  · rw [hlen]
    decide
  · rw [hlen]
    exact Chain.done

def farDisk : Region := fun p =>
  if p < 2 ^ 32 then entryBlock 2 98 (p % 1024) else entryBlock 1 97 (p % 1024)

def farBlock (block : ℕ) : Region := if block < 2 ^ 22 then entryBlock 2 98 else entryBlock 1 97

def farEntry (block : ℕ) : DirEntry := if block < 2 ^ 22 then oneEntry 2 98 else oneEntry 1 97

theorem chain_farEntry (h : Loaded b (farBlock block)) :
    Chain b 0 [farEntry block] := by
  unfold farBlock at h
  unfold farEntry
  split_ifs with hb
  · rw [if_pos hb] at h
    exact chain_oneEntry h
  · rw [if_neg hb] at h
    exact chain_oneEntry h

theorem loaded_stored (block : ℕ) : Loaded (stored farDisk block) (farBlock block) := by
  intro i hi
  have hmod : (block * 1024 + i) % 1024 = i := by omega
  rw [stored, farDisk, farBlock, hmod]
  by_cases hb : block < 2 ^ 22
  · have hpos : block * 1024 + i < 2 ^ 32 := by omega
    rw [if_pos hpos, if_pos hb]
  · have hpos : ¬block * 1024 + i < 2 ^ 32 := by omega
    rw [if_neg hpos, if_neg hb]

theorem loaded_delivered (block : ℕ) : Loaded (delivered farDisk block) (entryBlock 2 98) := by
  intro i hi
  have hpos : block * 1024 % 2 ^ 32 + i < 2 ^ 32 := by omega
  have hmod : (block * 1024 % 2 ^ 32 + i) % 1024 = i := by omega
  rw [delivered, farDisk, if_pos hpos, hmod]

theorem farEntry_inode_ne (block : ℕ) : (farEntry block).inode ≠ 0 := by
  unfold farEntry
  split_ifs
  · decide
  · decide

theorem flatten_singletons (g : ℕ → DirEntry) (n : ℕ) :
    ((List.range' 0 n).map fun i => [g i]).flatten = (List.range' 0 n).map g := by
  rw [← List.flatMap_def, ← List.map_eq_flatMap]

theorem live_singletons {g : ℕ → DirEntry} (hg : ∀ i, (g i).inode ≠ 0) (n : ℕ) :
    live ((List.range' 0 n).map fun i => [g i]).flatten = (List.range' 0 n).map g := by
  rw [flatten_singletons]
  apply List.filter_eq_self.mpr
  intro e he
  obtain ⟨i, -, rfl⟩ := List.mem_map.mp he
  exact decide_eq_true (hg i)

def oneBlockInode (block : ℕ) : Region := place 4 (toLE 4 1024) (place 40 (toLE 4 block) fun _ => 0)

def smallFs : Ext2Fs where
  blockSize := 1024
  inodeSize := 128
  inodesPerGroup := 8
  blockGroupCount := 1
  bgdBlockSpan := 1
  blockGroups := place 8 (toLE 4 5) fun _ => 0

end Probe

/-- `ext2_direntry` gives a copy of the live entry with the index, and NULL behind
the last one, on every disk that holds the directory, exactly if the blocks of the
directory are below 4 GiB. -/
theorem direntry_iff {fs : Ext2Fs} (hfs : fs.blockSize = 1024) (inode : Region) {n : ℕ}
    (hn : n ≤ 12) (hsize : iSize inode = n * 1024) (hblocks : ∀ k < n, iBlock inode k ≠ 0) :
    (∀ disk heap ess, ess.length = n → Holds (stored disk) inode 0 ess →
        ∀ ino index, index < 2 ^ 32 → ∃ rounds, ∀ fuel, rounds ≤ fuel →
          ext2Direntry fs disk heap inode fuel ino index =
            some ((live ess.flatten)[index]?.map DirEntry.record)) ↔
      ∀ k < n, iBlock inode k < 2 ^ 22 := by
  constructor
  · intro h k hk
    by_contra hfar
    have hstored : Holds (stored farDisk) inode 0
        ((List.range' 0 n).map fun i => [farEntry (iBlock inode i)]) :=
      Holds.map_range fun i _ hi => ⟨hblocks i (by omega), chain_farEntry (loaded_stored _)⟩
    have hdelivered : Holds (delivered farDisk) inode 0
        ((List.range' 0 n).map fun _ => [oneEntry 2 98]) :=
      Holds.map_range fun i _ hi => ⟨hblocks i (by omega), chain_oneEntry (loaded_delivered _)⟩
    obtain ⟨rounds, hrun⟩ := h farDisk (fun _ => 0) _ (by simp) hstored 0 k (by omega)
    have hcode := ext2Direntry_eq hfs (show k < 2 ^ 32 by omega) hdelivered (by simpa using hn)
      (by simpa using hsize) (fun _ => 0) 0 (Nat.lt_add_of_pos_right (Nat.succ_pos rounds))
    have hget : (List.range' 0 n)[k]? = some k := by
      rw [List.getElem?_range' hk, Nat.zero_add, Nat.one_mul]
    rw [hrun _ (by omega), live_singletons fun i => farEntry_inode_ne _,
      live_singletons fun _ => by decide, List.getElem?_map, List.getElem?_map, hget] at hcode
    simp only [Option.map_some, Option.some.injEq, farEntry, if_neg hfar] at hcode
    -- The first byte of the record belongs to the inode number.
    exact absurd (congrArg (fun record => record[0]?) hcode) (by decide)
  · intro hnear disk heap ess hlen hess ino index hindex
    refine ⟨ess.flatten.length + 1, fun fuel hfuel => ?_⟩
    apply ext2Direntry_eq hfs hindex _ (hlen.trans_le hn) (by rw [hsize, hlen]) heap ino hfuel
    exact hess.congr fun i _ hi => (stored_eq_delivered (hnear i (by omega))).symm

/-- A directory of one block, number 6. -/
theorem direntry_iff_one_block :
    Holds (stored farDisk) (oneBlockInode 6) 0 [[oneEntry 2 98]] ∧ ∃ rounds, ∀ fuel, rounds ≤ fuel →
      ext2Direntry smallFs farDisk (fun _ => 0) (oneBlockInode 6) fuel 2 0 =
        some (some (oneEntry 2 98).record) := by
  have hblock : iBlock (oneBlockInode 6) 0 = 6 := by decide
  have hess : Holds (stored farDisk) (oneBlockInode 6) 0 [[oneEntry 2 98]] :=
    ⟨by rw [hblock]; decide, by rw [hblock]; exact chain_farEntry (loaded_stored 6), trivial⟩
  exact ⟨hess, (direntry_iff rfl (oneBlockInode 6) (by decide) (by decide) (by decide)).mpr (by decide)
    farDisk _ _ rfl hess 2 0 (by decide)⟩

/-- A directory in the block at 4 GiB: the first entry of block 0 is returned. -/
theorem far_directory_misread :
    Holds (stored farDisk) (oneBlockInode (2 ^ 22)) 0 [[oneEntry 1 97]] ∧
      ext2Direntry smallFs farDisk (fun _ => 0) (oneBlockInode (2 ^ 22)) 2 2 0 =
        some (some (oneEntry 2 98).record) ∧
      (oneEntry 2 98).record ≠ (oneEntry 1 97).record := by
  have hblock : iBlock (oneBlockInode (2 ^ 22)) 0 = 2 ^ 22 := by decide
  refine ⟨⟨?_, ?_, trivial⟩, ?_, ?_⟩
  · rw [hblock]
    decide
  · rw [hblock]
    exact chain_farEntry (loaded_stored (2 ^ 22))
  · have hess : Holds (delivered farDisk) (oneBlockInode (2 ^ 22)) 0 [[oneEntry 2 98]] :=
      ⟨by rw [hblock]; decide, chain_oneEntry (loaded_delivered _), trivial⟩
    exact ext2Direntry_eq rfl (by decide) hess (by decide) (by decide) _ 2 (by decide)
  · exact fun heq => absurd (congrArg (fun record => record[0]?) heq) (by decide)

end Bingos.Ext2
