import Bingos.Ext2Enumeration

set_option autoImplicit false
set_option maxRecDepth 4096

/-! Which entry `ext2_finddir` takes for a name, against the entries that
`ext2_readdir` enumerates. -/
namespace Bingos.Ext2
open CStrings ByteMemory MachineWords

structure Named (name : Region) (s : Bytes) : Prop where
  bytes : bytesAt name 0 s.length = s
  terminator : name s.length = 0
  inner : 0 ∉ s

def matchesName (name : Region) (e : DirEntry) : Bool := e.name = bytesAt name 0 e.name.length

def hasName (s : Bytes) (e : DirEntry) : Bool := e.name = s

def NamesInside (es : List DirEntry) : Prop := ∀ e ∈ es, 8 + e.name.length ≤ e.record.length

/-- `ext2_read_inode` does not panic. -/
def ValidInode (fs : Ext2Fs) (ino : ℕ) : Prop :=
  (ino + (2 ^ 32 - 1)) % 2 ^ 32 / fs.inodesPerGroup ≤ fs.blockGroupCount

instance (fs : Ext2Fs) (ino : ℕ) : Decidable (ValidInode fs ino) :=
  inferInstanceAs (Decidable (_ ≤ _))

def inodeFound (r : Option (Option Region)) : Option (Option ℕ) :=
  r.map (·.map fun node => field node 0 4)

theorem inodeFound_eq_null {r : Option (Option Region)} :
    inodeFound r = some none ↔ r = some none := by
  rw [inodeFound, Option.map_eq_some_iff]
  constructor
  · rintro ⟨r', rfl, hnone⟩
    rw [Option.map_eq_none_iff.mp hnone]
  · rintro rfl
    exact ⟨none, rfl, rfl⟩

variable {b buf inode : Region} {block i index o : ℕ} {view : ℕ → Region}

theorem memcmp_eq_zero_iff {p q : Region} {count : ℕ} :
    memcmp p q count i = 0 ↔ ∀ k < count, p (i + k) = q (i + k) := by
  induction count generalizing i with
  | zero => exact ⟨fun _ k hk => absurd hk (Nat.not_lt_zero k), fun _ => rfl⟩
  | succ count ih =>
    rw [memcmp]
    by_cases heq : p i = q i
    · rw [heq, if_neg (Nat.lt_irrefl _), if_neg (Nat.lt_irrefl _), ih]
      constructor
      · intro h k hk
        cases k with
        | zero => exact heq
        | succ k =>
          have hnext := h k (by omega)
          rwa [Nat.add_assoc, Nat.add_comm 1 k] at hnext
      · intro h k hk
        have hnext := h (k + 1) (by omega)
        rwa [Nat.add_assoc, Nat.add_comm 1 k]
    · have hne : (p i).toNat ≠ (q i).toNat := fun h => heq (UInt8.toNat_inj.mp h)
      constructor
      · intro h
        rcases Nat.lt_or_gt_of_ne hne with hlt | hgt
        · rw [if_pos hlt] at h
          omega
        · rw [if_neg (Nat.lt_asymm hgt), if_pos hgt] at h
          omega
      · intro h
        exact absurd (h 0 (Nat.succ_pos count)) heq

theorem ext2ReadInode_isSome (fs : Ext2Fs) (disk heap : Region) (ino : ℕ) :
    (ext2ReadInode fs disk heap ino).isSome ↔ ValidInode fs ino := by
  unfold ext2ReadInode ValidInode
  simp only
  split_ifs with h
  · simp only [Option.isSome_none, Bool.false_eq_true, false_iff]
    omega
  · simp only [Option.isSome_some, true_iff]
    omega

theorem foundNode_inode (node : Region) {ino : ℕ} (mode : ℕ) (name : Bytes) (h : ino < 2 ^ 32) :
    field (foundNode node ino mode name) 0 4 = ino := by
  unfold foundNode
  rw [field_place_other (by omega), field_place_other (by omega), field_place_self]
  exact Nat.mod_eq_of_lt h

/-- A match with an entry whose inode number is not valid ends in a panic. -/
def lookupResult (fs : Ext2Fs) (e : DirEntry) : Option (Option ℕ) :=
  if ValidInode fs e.inode then some (some e.inode) else none

variable {e : DirEntry} {ess : List (List DirEntry)} {k : ℕ}

section Walk
variable {fs : Ext2Fs} {disk : Region} {heap : ℕ → Region} {lowStrlen : ℕ → ℕ} {name : Region}

theorem compare_iff (name : Region) (hbuf : Loaded buf b)
    (hname : o + 8 + entryNameLen b o ≤ 1024) :
    memcmp (fun i => buf (o + 8 + i)) name (entryNameLen b o) 0 = 0 ↔
      matchesName name (entryAt b o) = true := by
  have hlen : (entryAt b o).name.length = entryNameLen b o := length_bytesAt _ _
  rw [memcmp_eq_zero_iff, matchesName, decide_eq_true_iff, hlen]
  simp only [entryAt, bytesAt, List.map_inj_left, List.mem_range, Nat.zero_add]
  apply forall₂_congr
  intro i hi
  rw [hbuf _ (by omega)]

/-- One block: the result for the first match, or the state at the start of the
next block. -/
theorem finddirLoop_block (hfs : fs.blockSize = 1024) (hbuf : Loaded buf b)
    {es : List DirEntry} (hes : Chain b o es) (hnames : NamesInside es) (ho : o < 1024)
    (fuel k : ℕ) {total : ℕ} (hsize : total + (1024 - o) ≤ iSize inode) :
    inodeFound (finddirLoop fs disk heap lowStrlen inode name (es.length + fuel) buf k o total) =
      ((live es).find? (matchesName name)).elim
        (inodeFound (finddirLoop fs disk heap lowStrlen inode name fuel
          (ext2InodeReadBlock inode disk (k + 1) buf) (k + 1) 0 (total + (1024 - o))))
        (lookupResult fs) := by
  have hlt : iSize inode < 2 ^ 32 := field_lt 4 4
  induction hes generalizing total with
  | done => omega
  | @entry o es header advance rest ih =>
    have hend := rest.le
    have hoff : add32 o (entryRecLen b o) = o + entryRecLen b o := add32_of_lt (by omega)
    have htotal : add32 total (entryRecLen b o) = total + entryRecLen b o := add32_of_lt (by omega)
    have hinside : 8 + entryNameLen b o ≤ entryRecLen b o := by
      have h := hnames _ List.mem_cons_self
      simpa only [entryAt, length_bytesAt] using h
    have hrest : NamesInside es := fun e he => hnames e (List.mem_cons_of_mem _ he)
    have hcompare := compare_iff name hbuf (by omega : o + 8 + entryNameLen b o ≤ 1024)
    rw [List.length_cons, Nat.add_right_comm, finddirLoop, if_pos (by omega)]
    simp only [hbuf.entryInode header, hbuf.entryRecLen header, hbuf.entryNameLen header, hoff, htotal,
      hfs]
    by_cases hfound : entryInode b o ≠ 0 ∧
        memcmp (fun i => buf (o + 8 + i)) name (entryNameLen b o) 0 = 0
    · rw [if_pos hfound, live_cons_of_ne hfound.1,
        List.find?_cons_of_pos (hcompare.mp hfound.2), Option.elim_some, lookupResult]
      have hsome := ext2ReadInode_isSome fs disk (heap 3) (entryInode b o)
      have hino : entryInode b o < 2 ^ 32 := field_lt o 4
      cases hread : ext2ReadInode fs disk (heap 3) (entryInode b o) with
      | none =>
        rw [hread] at hsome
        have hinvalid : ¬ValidInode fs (entryAt b o).inode := fun h => Bool.false_ne_true (hsome.mpr h)
        rw [if_neg hinvalid]
        rfl
      | some i =>
        rw [hread] at hsome
        have hvalid : ValidInode fs (entryAt b o).inode := hsome.mp rfl
        rw [if_pos hvalid]
        simp only [inodeFound, Option.map_some, foundNode_inode _ _ _ hino]
        rfl
    · rw [if_neg hfound]
      have hskip : (live (entryAt b o :: es)).find? (matchesName name) =
          (live es).find? (matchesName name) := by
        by_cases hlive : entryInode b o ≠ 0
        · have hmiss : ¬matchesName name (entryAt b o) = true :=
            fun h => hfound ⟨hlive, hcompare.mpr h⟩
          rw [live_cons_of_ne hlive, List.find?_cons_of_neg hmiss]
        · rw [live_cons_of_eq (Decidable.not_not.mp hlive)]
      rw [hskip]
      by_cases hlast : 1024 ≤ o + entryRecLen b o
      · have heq : o + entryRecLen b o = 1024 := by omega
        rw [heq] at rest
        have htotal' : total + entryRecLen b o = total + (1024 - o) := by omega
        rw [if_pos hlast, rest.eq_nil, heq, htotal', sub32_of_le (by decide) le_rfl]
        simp only [live, List.filter_nil, List.find?_nil, Option.elim_none, List.length_nil,
          Nat.zero_add, Nat.sub_self]
      · have htotal' : total + entryRecLen b o + (1024 - (o + entryRecLen b o)) =
            total + (1024 - o) := by omega
        rw [if_neg hlast, ih hrest (by omega) (by omega), htotal']

/-- Blocks from the `k`-th on: the result for the first match, or the state behind them. -/
theorem finddirLoop_blocks (heap : ℕ → Region) (lowStrlen : ℕ → ℕ) (name : Region)
    (hfs : fs.blockSize = 1024) (hess : Holds (delivered disk) inode k ess)
    (hnames : NamesInside ess.flatten) (hlen : k + ess.length ≤ 12)
    (hsize : (k + ess.length) * 1024 ≤ iSize inode) (buf : Region) (fuel : ℕ) :
    ∃ buf', inodeFound (finddirLoop fs disk heap lowStrlen inode name (ess.flatten.length + fuel)
        (ext2InodeReadBlock inode disk k buf) k 0 (k * 1024)) =
      ((live ess.flatten).find? (matchesName name)).elim
        (inodeFound (finddirLoop fs disk heap lowStrlen inode name fuel
          (ext2InodeReadBlock inode disk (k + ess.length) buf') (k + ess.length) 0
          ((k + ess.length) * 1024)))
        (lookupResult fs) := by
  induction ess generalizing k buf with
  | nil =>
    refine ⟨buf, ?_⟩
    rw [List.flatten_nil, List.length_nil, Nat.zero_add]
    rfl
  | cons es ess ih =>
    obtain ⟨hne, hes, hrest⟩ := hess
    rw [List.length_cons] at hlen hsize
    rw [List.flatten_cons] at hnames
    have hfirst : NamesInside es := fun e he => hnames e (List.mem_append_left _ he)
    have hlater : NamesInside ess.flatten := fun e he => hnames e (List.mem_append_right _ he)
    have hnext : k * 1024 + (1024 - 0) = (k + 1) * 1024 := by omega
    have hcount : k + (es :: ess).length = k + 1 + ess.length := by
      rw [List.length_cons]
      omega
    obtain ⟨buf', hrun⟩ := ih hrest hlater (by omega) (by omega) (ext2InodeReadBlock inode disk k buf)
    refine ⟨buf', ?_⟩
    rw [List.flatten_cons, List.length_append, Nat.add_assoc,
      finddirLoop_block hfs (loaded_block buf (by omega) hne) hes hfirst (by decide) _ k (by omega),
      hnext, live_append, List.find?_append, hrun, hcount]
    cases (live es).find? (matchesName name) with
    | none => rfl
    | some e => rfl

end Walk

section Entries
variable {es : List DirEntry}

theorem Chain.exists_entryAt (h : Chain b o es) (he : e ∈ es) : ∃ p, e = entryAt b p := by
  induction h with
  | done => cases he
  | @entry o es header advance rest ih =>
    rcases List.mem_cons.mp he with rfl | hrest
    · exact ⟨o, rfl⟩
    · exact ih hrest

theorem Chain.length_le (h : Chain b o es) : o + es.length ≤ 1024 := by
  induction h with
  | done => exact le_rfl
  | entry header advance rest ih =>
    rw [List.length_cons]
    omega

theorem Holds.exists_entryAt (h : Holds view inode k ess) (he : e ∈ ess.flatten) :
    ∃ b p, e = entryAt b p := by
  induction ess generalizing k with
  | nil => cases he
  | cons es ess ih =>
    obtain ⟨-, hes, hrest⟩ := h
    rcases List.mem_append.mp (List.flatten_cons ▸ he) with hhere | hlater
    · exact ⟨_, hes.exists_entryAt hhere⟩
    · exact ih hrest hlater

theorem Holds.length_le (h : Holds view inode k ess) : ess.flatten.length ≤ ess.length * 1024 := by
  induction ess generalizing k with
  | nil => exact Nat.zero_le _
  | cons es ess ih =>
    obtain ⟨-, hes, hrest⟩ := h
    have hhere := hes.length_le
    have hlater := ih hrest
    rw [List.flatten_cons, List.length_append, List.length_cons]
    omega

theorem regionOf_bytesAt {n : ℕ} (h : i < n) : regionOf (bytesAt b o n) i = b (o + i) := by
  have hlen : i < (bytesAt b o n).length := by rwa [length_bytesAt]
  rw [regionOf, List.getD_eq_getElem _ _ hlen]
  simp only [bytesAt, List.getElem_map, List.getElem_range]

theorem direntOf_entryAt (h : 8 + entryNameLen b o ≤ entryRecLen b o) :
    direntOf (entryAt b o).record = ⟨entryInode b o, (entryAt b o).name ++ [0]⟩ := by
  have hbyte : ∀ i < entryRecLen b o, regionOf (bytesAt b o (entryRecLen b o)) i = b (o + i) :=
    fun i hi => regionOf_bytesAt hi
  have hino : entryInode (regionOf (bytesAt b o (entryRecLen b o))) 0 = entryInode b o :=
    field_congr fun i hi => by rw [Nat.zero_add, hbyte i (by omega)]
  have hlen : entryNameLen (regionOf (bytesAt b o (entryRecLen b o))) 0 = entryNameLen b o :=
    field_congr fun i hi => by
      rw [Nat.zero_add, hbyte (6 + i) (by omega), Nat.add_assoc]
  have hname : bytesAt (regionOf (bytesAt b o (entryRecLen b o))) 8 (entryNameLen b o) =
      bytesAt b (o + 8) (entryNameLen b o) := by
    apply List.map_congr_left
    intro i hi
    have hlt := List.mem_range.mp hi
    rw [hbyte (8 + i) (by omega), Nat.add_assoc]
  rw [direntOf, entryAt]
  simp only [hino, hlen, hname]

end Entries

section Agreement
variable {fs : Ext2Fs} {disk : Region} {heap : ℕ → Region} {lowStrlen : ℕ → ℕ} {ino : ℕ}
variable {inode : Bytes} {name : Region} {s : Bytes} {ess' : List (List DirEntry)}

def Yields (fs : Ext2Fs) (disk : Region) (heap : ℕ → Region) (ino : ℕ) (s : Bytes) (index : ℕ) :
    Prop :=
  ∃ rounds, ∀ fuel, rounds ≤ fuel →
    ∃ d, ext2Readdir fs disk heap fuel ino index = some (some d) ∧ d.dName = s ++ [0]

/-- Lookup returns a node with the inode number of the first live entry of exactly
this name, and NULL exactly if enumeration yields no such entry. -/
structure LooksUp (fs : Ext2Fs) (disk : Region) (heap : ℕ → Region) (lowStrlen : ℕ → ℕ) (ino : ℕ)
    (name : Region) (s : Bytes) (es : List DirEntry) : Prop where
  found : ∃ rounds, ∀ fuel, rounds ≤ fuel →
    inodeFound (ext2Finddir fs disk heap lowStrlen fuel ino name) =
      some (((live es).find? (hasName s)).map DirEntry.inode)
  null : (∃ rounds, ∀ fuel, rounds ≤ fuel →
      ext2Finddir fs disk heap lowStrlen fuel ino name = some none) ↔
    ∀ index < 2 ^ 32, ¬Yields fs disk heap ino s index

/-- The entries in the blocks that are read from the first on: in all of them, or in those up to
one with an entry of the name. -/
structure ReadAs (disk inode : Region) (s : Bytes) (ess : List (List DirEntry)) : Prop where
  holds : Holds (delivered disk) inode 0 ess
  names : NamesInside ess.flatten
  length_le : ess.length ≤ 12
  size_le : ess.length * 1024 ≤ iSize inode
  all : iSize inode = ess.length * 1024 ∨ ∃ e ∈ live ess.flatten, e.name = s

/-- Among the entries that are read, none whose name is only the beginning of the one asked for
comes first, unless it links to the inode of that name; and names that are held are read. -/
structure Unshadowed (fs : Ext2Fs) (name : Region) (s : Bytes) (read held : List DirEntry) :
    Prop where
  first : ∀ e, read.find? (matchesName name) = some e → ValidInode fs e.inode ∧
    (∃ d ∈ read, d.name = s) ∧ ∃ d, held.find? (hasName s) = some d ∧ d.inode = e.inode
  absent : read.find? (matchesName name) = none → ∀ d ∈ held, d.name ≠ s

theorem Named.matchesName (hname : Named name s) (he : e.name = s) :
    matchesName name e = true := by
  rw [Ext2.matchesName, he, hname.bytes]
  exact decide_eq_true rfl

section Read
variable (hfs : fs.blockSize = 1024) (hread : ext2ReadInode fs disk (heap 0) ino = some inode)
  (hess : ReadAs disk (regionOf inode) s ess)
include hfs hread hess

variable (heap lowStrlen) in
theorem ext2Finddir_eq (hname : Named name s) {fuel : ℕ} (hfuel : ess.flatten.length < fuel) :
    inodeFound (ext2Finddir fs disk heap lowStrlen fuel ino name) =
      ((live ess.flatten).find? (matchesName name)).elim (some none) (lookupResult fs) := by
  obtain ⟨m, rfl⟩ := Nat.exists_eq_add_of_lt hfuel
  obtain ⟨buf', hrun⟩ := finddirLoop_blocks heap lowStrlen name hfs hess.holds hess.names
    (by have := hess.length_le; omega) (by have := hess.size_le; omega) (heap 1) (m + 1)
  rw [Nat.zero_mul, Nat.zero_add] at hrun
  rw [ext2Finddir, hread, Option.bind_some, Nat.add_assoc, hrun]
  cases hmatch : (live ess.flatten).find? (matchesName name) with
  | some e => rfl
  | none =>
    rcases hess.all with hsize | ⟨e, he, hexact⟩
    · rw [Option.elim_none, finddirLoop, if_neg (by omega)]
      rfl
    · exact absurd (hname.matchesName hexact) (List.find?_eq_none.mp hmatch e he)

omit hfs hread in
theorem dName_of_live (he : (live ess.flatten)[index]? = some e) :
    (direntOf e.record).dName = e.name ++ [0] := by
  have hmem : e ∈ ess.flatten := List.mem_of_mem_filter (List.mem_of_getElem? he)
  have hinside := hess.names e hmem
  obtain ⟨b, p, rfl⟩ := hess.holds.exists_entryAt hmem
  simp only [entryAt, length_bytesAt] at hinside
  rw [direntOf_entryAt hinside]

theorem yields_of_live (hindex : index < 2 ^ 32)
    (he : (live ess.flatten)[index]? = some e) (hexact : e.name = s) :
    Yields fs disk heap ino s index := by
  refine ⟨ess.flatten.length, fun fuel hfuel => ⟨direntOf e.record, ?_, ?_⟩⟩
  · rw [ext2Readdir, hread, Option.bind_some, ext2Direntry_found hfs hindex hess.holds
      hess.length_le hess.size_le (heap 1) ino he hfuel]
    rfl
  · rw [dName_of_live hess he, hexact]

theorem not_yields_iff :
    (∀ index < 2 ^ 32, ¬Yields fs disk heap ino s index) ↔ ∀ e ∈ live ess.flatten, e.name ≠ s := by
  constructor
  · intro h e he hexact
    obtain ⟨index, hindex, rfl⟩ := List.mem_iff_getElem.mp he
    have hbound : index < 2 ^ 32 := by
      have hlive := List.length_filter_le (fun e : DirEntry => decide (e.inode ≠ 0)) ess.flatten
      have htotal := hess.holds.length_le
      have hlen := hess.length_le
      rw [live] at hindex
      omega
    exact h index hbound (yields_of_live hfs hread hess hbound (List.getElem?_eq_getElem hindex)
      hexact)
  · rintro h index hindex ⟨rounds, hyields⟩
    have hnone : ¬∃ e ∈ live ess.flatten, e.name = s := by
      rintro ⟨e, he, hexact⟩
      exact h e he hexact
    have hsize := hess.all.resolve_right hnone
    obtain ⟨d, hd, hname⟩ := hyields (ess.flatten.length + 1 + rounds) (by omega)
    rw [ext2Readdir, hread, Option.bind_some, ext2Direntry_eq hfs hindex hess.holds
      hess.length_le hsize (heap 1) ino (by omega), Option.map_some, Option.map_map,
      Option.some.injEq, Option.map_eq_some_iff] at hd
    obtain ⟨e, he, rfl⟩ := hd
    rw [Function.comp_apply, dName_of_live hess he] at hname
    exact h e (List.mem_of_getElem? he) (List.append_cancel_right hname)

theorem looksUp_iff (hname : Named name s) (held : List DirEntry) :
    LooksUp fs disk heap lowStrlen ino name s held ↔
      Unshadowed fs name s (live ess.flatten) (live held) := by
  have hrun : ∀ fuel, ess.flatten.length < fuel →
      inodeFound (ext2Finddir fs disk heap lowStrlen fuel ino name) =
        ((live ess.flatten).find? (matchesName name)).elim (some none) (lookupResult fs) :=
    fun fuel hfuel => ext2Finddir_eq heap lowStrlen hfs hread hess hname hfuel
  have hyields := not_yields_iff (s := s) hfs hread hess
  cases hmatch : (live ess.flatten).find? (matchesName name) with
  | none =>
    rw [hmatch] at hrun
    have hnull : ∃ rounds, ∀ fuel, rounds ≤ fuel →
        ext2Finddir fs disk heap lowStrlen fuel ino name = some none :=
      ⟨_, fun fuel hfuel => inodeFound_eq_null.mp (hrun fuel hfuel)⟩
    have hnone : ∀ e ∈ live ess.flatten, e.name ≠ s := fun e he hexact =>
      List.find?_eq_none.mp hmatch e he (hname.matchesName hexact)
    constructor
    · intro h
      refine ⟨fun e he => ?_, fun _ d hd hexact => ?_⟩
      · rw [hmatch] at he
        cases he
      · obtain ⟨rounds, hfound⟩ := h.found
        have heq := hfound (ess.flatten.length + 1 + rounds) (by omega)
        rw [hrun _ (by omega), Option.elim_none, Option.some.injEq, eq_comm,
          Option.map_eq_none_iff] at heq
        exact List.find?_eq_none.mp heq d hd (decide_eq_true hexact)
    · intro h
      have hheld : (live held).find? (hasName s) = none :=
        List.find?_eq_none.mpr fun d hd hexact => h.absent hmatch d hd (of_decide_eq_true hexact)
      refine ⟨⟨ess.flatten.length + 1, fun fuel hfuel => ?_⟩,
        iff_of_true hnull (hyields.mpr hnone)⟩
      rw [hrun fuel hfuel, hheld]
      rfl
  | some e =>
    rw [hmatch, Option.elim_some, lookupResult] at hrun
    have hnotnull : ¬ ∃ rounds, ∀ fuel, rounds ≤ fuel →
        ext2Finddir fs disk heap lowStrlen fuel ino name = some none := by
      rintro ⟨rounds, hnull⟩
      have heq := hrun (ess.flatten.length + 1 + rounds) (by omega)
      rw [inodeFound_eq_null.mpr (hnull _ (by omega))] at heq
      split_ifs at heq
      cases heq
    constructor
    · intro h
      obtain ⟨rounds, hfound⟩ := h.found
      have heq := hfound (ess.flatten.length + 1 + rounds) (by omega)
      rw [hrun _ (by omega)] at heq
      split_ifs at heq with hvalid
      obtain ⟨d, hd, hsame⟩ := Option.map_eq_some_iff.mp (Option.some.inj heq).symm
      have hexact : ∃ d ∈ live ess.flatten, d.name = s := by
        by_contra hnone
        push Not at hnone
        exact hnotnull (h.null.mpr (hyields.mpr hnone))
      refine ⟨fun e' he' => ?_, fun hnone => ?_⟩
      · obtain rfl : e = e' := Option.some.inj (hmatch.symm.trans he')
        exact ⟨hvalid, hexact, d, hd, hsame⟩
      · rw [hmatch] at hnone
        cases hnone
    · intro h
      obtain ⟨hvalid, ⟨d', hd', hexact⟩, d, hd, hsame⟩ := h.first e hmatch
      refine ⟨⟨ess.flatten.length + 1, fun fuel hfuel => ?_⟩,
        iff_of_false hnotnull fun hnone => hyields.mp hnone d' hd' hexact⟩
      rw [hrun fuel hfuel, if_pos hvalid, hd, Option.map_some, hsame]

end Read

end Agreement

section Probe

def inodeDisk (inode : Bytes) (t : ℕ) : Region := place (t * 1024) inode farDisk

def tableFs (t : ℕ) : Ext2Fs := { smallFs with blockGroups := place 8 (toLE 4 t) fun _ => 0 }

variable {inode : Bytes} (hlen : inode.length = 128) {t : ℕ}
include hlen

theorem inodeDisk_other {p : ℕ} (h : p / 1024 ≠ t) : inodeDisk inode t p = farDisk p := by
  rw [inodeDisk, place, if_neg (by omega)]

theorem loaded_inodeDisk_stored (h : block ≠ t) :
    Loaded (stored (inodeDisk inode t) block) (farBlock block) := by
  intro i hi
  rw [← loaded_stored block i hi]
  exact inodeDisk_other hlen (by omega)

theorem loaded_inodeDisk_delivered (h : block % 2 ^ 22 ≠ t) :
    Loaded (delivered (inodeDisk inode t) block) (entryBlock 2 98) := by
  intro i hi
  rw [← loaded_delivered block i hi]
  exact inodeDisk_other hlen (by omega)

theorem ext2ReadInode_inodeDisk (heap : Region) (ht : t ≠ 0) (hlt : t < 14) :
    ext2ReadInode (tableFs t) (inodeDisk inode t) heap 1 = some inode := by
  have htable : field (place 8 (toLE 4 t) fun _ => 0) 8 4 = t := by
    rw [field_place_self]
    exact Nat.mod_eq_of_lt (by omega)
  have hbytes : (List.range 128).map (fun j => ext2ReadBlock (inodeDisk inode t) t heap 0 j) = inode := by
    apply List.ext_getElem
    · rw [List.length_map, List.length_range, hlen]
    · intro j h₁ h₂
      have hpos : (1024 + (t - 1) * 1024) % 2 ^ 32 + (j - 0) = t * 1024 + j := by omega
      have hbuf : 0 ≤ j ∧ j < 0 + 1024 := by omega
      have hin : t * 1024 ≤ t * 1024 + j ∧ t * 1024 + j < t * 1024 + inode.length := by omega
      rw [List.getElem_map, List.getElem_range, ext2ReadBlock, if_neg ht]
      simp only [if_pos hbuf, hpos, inodeDisk, place, if_pos hin, Nat.add_sub_cancel_left]
      exact List.getD_eq_getElem _ _ h₂
  have hindex : (1 + (2 ^ 32 - 1)) % 2 ^ 32 = 0 := by norm_num
  simp only [ext2ReadInode, tableFs, smallFs, sizeofGroupDesc, hindex, Nat.zero_div, Nat.zero_mod,
    Nat.mul_zero, Nat.zero_mul, Nat.zero_add, Nat.add_zero, htable, Nat.not_lt_zero, if_false,
    Nat.mod_eq_of_lt (show t < 2 ^ 32 by omega), hbytes]

end Probe

theorem oneEntry_inside (ino c : UInt8) :
    8 + (oneEntry ino c).name.length ≤ (oneEntry ino c).record.length := by
  simp only [oneEntry, length_bytesAt, List.length_singleton]
  decide

def sixthBlockBytes : Bytes := bytesAt (oneBlockInode 6) 0 128

theorem holds_sixthBlock (view : ℕ → Region) (h : Loaded (view 6) (entryBlock 2 98)) :
    Holds view (regionOf sixthBlockBytes) 0 [[oneEntry 2 98]] := by
  have hblock : iBlock (regionOf sixthBlockBytes) 0 = 6 := by decide
  exact ⟨by rw [hblock]; decide, by rw [hblock]; exact chain_oneEntry h, trivial⟩

theorem namesInside_oneEntry : NamesInside [oneEntry 2 98] := by
  intro e he
  rw [List.mem_singleton.mp he]
  exact oneEntry_inside 2 98

theorem validInode_oneEntry : ValidInode (tableFs 5) (oneEntry 2 98).inode := by
  change ValidInode smallFs _
  decide

end Bingos.Ext2
