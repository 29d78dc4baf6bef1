import Bingos.Ext2Enumeration
import Bingos.GuardedLoops

set_option autoImplicit false

/-! The walks of `ext2_direntry` and `ext2_finddir` over the records of a
directory: whether they end, and whether the headers they read lie inside the
block buffer, for any records on the disk. -/
namespace Bingos.Ext2
open ByteMemory MachineWords GuardedLoops

/-- The local variables of the two loops; `dirIndex` is that of `ext2_direntry`. -/
structure Walk where
  buf : Region
  blockIndex : ℕ
  dirOffset : ℕ
  totalOffset : ℕ
  dirIndex : ℕ

namespace Walk
variable (w : Walk)

def recLen : ℕ := entryRecLen w.buf w.dirOffset

def live : Bool := entryInode w.buf w.dirOffset ≠ 0

end Walk

inductive Search where
  | index (n : BitVec 32)
  | name (s : Region)

namespace Search

/-- The search by index goes on while it has not counted past the index. -/
def within : Search → ℕ → Prop
  | .index n, count => count ≤ n.toNat
  | .name _, _ => True

def enters (inode : Region) (s : Search) (w : Walk) : Prop :=
  w.totalOffset < iSize inode ∧ s.within w.dirIndex

def answers : Search → Walk → Prop
  | .index n, w => w.live ∧ w.dirIndex = n.toNat
  | .name s, w => w.live ∧
      memcmp (fun i => w.buf (w.dirOffset + 8 + i)) s (entryNameLen w.buf w.dirOffset) 0 = 0

def goesOn (inode : Region) (s : Search) (w : Walk) : Prop := s.enters inode w ∧ ¬ s.answers w

def counted : Search → Walk → ℕ
  | .index _, w => if w.live then add32 w.dirIndex 1 else w.dirIndex
  | .name _, w => w.dirIndex

def moves : Search → Walk → Prop
  | .index _, w => w.recLen ≠ 0 ∨ w.live
  | .name _, w => w.recLen ≠ 0

end Search

section Rounds
variable (fs : Ext2Fs) (disk inode : Region) (s : Search)

/-- One round of the loops that does not leave them. -/
def advance (w : Walk) : Walk :=
  if fs.blockSize ≤ add32 w.dirOffset w.recLen then
    ⟨ext2InodeReadBlock inode disk (w.blockIndex + 1) w.buf, w.blockIndex + 1,
      sub32 (add32 w.dirOffset w.recLen) fs.blockSize, add32 w.totalOffset w.recLen, s.counted w⟩
  else ⟨w.buf, w.blockIndex, add32 w.dirOffset w.recLen, add32 w.totalOffset w.recLen, s.counted w⟩

def startWalk (heap : Region) : Walk := ⟨ext2InodeReadBlock inode disk 0 heap, 0, 0, 0, 0⟩

def walkAt (heap : Region) (k : ℕ) : Walk :=
  (advance fs disk inode s)^[k] (startWalk disk inode heap)

def WalkEnds (heap : Region) : Prop :=
  Ends (advance fs disk inode s) (s.goesOn inode) (startWalk disk inode heap)

def Entered (heap : Region) (k : ℕ) : Prop :=
  Passes (advance fs disk inode s) (s.goesOn inode) (startWalk disk inode heap) k ∧
    s.enters inode (walkAt fs disk inode s heap k)

def HeaderInside (w : Walk) : Prop := w.dirOffset + 8 ≤ fs.blockSize

def HeadersInside (heap : Region) : Prop :=
  ∀ k, Entered fs disk inode s heap k → HeaderInside fs (walkAt fs disk inode s heap k)

theorem entered_succ {heap : Region} {k : ℕ} : Entered fs disk inode s heap (k + 1) ↔
    Entered fs disk inode s heap k ∧ ¬ s.answers (walkAt fs disk inode s heap k) ∧
      s.enters inode (walkAt fs disk inode s heap (k + 1)) := by
  constructor
  · rintro ⟨hpass, henter⟩
    obtain ⟨hlast, hanswer⟩ := hpass k (Nat.lt_succ_self k)
    exact ⟨⟨fun j hj => hpass j (by omega), hlast⟩, hanswer, henter⟩
  · rintro ⟨⟨hpass, hlast⟩, hanswer, henter⟩
    exact ⟨hpass.succ ⟨hlast, hanswer⟩, henter⟩

end Rounds

section Connection
variable (fs : Ext2Fs) (disk inode : Region)

def direntryFrom (n : BitVec 32) (fuel : ℕ) (w : Walk) : Option (Option CStrings.Bytes) :=
  direntryLoop fs disk inode n.toNat fuel w.buf w.blockIndex w.dirOffset w.totalOffset w.dirIndex

theorem direntryFrom_goesOn (n : BitVec 32) (fuel : ℕ) (w : Walk)
    (h : (Search.index n).goesOn inode w) :
    direntryFrom fs disk inode n (fuel + 1) w =
      direntryFrom fs disk inode n fuel (advance fs disk inode (.index n) w) := by
  have henter : w.totalOffset < iSize inode ∧ w.dirIndex ≤ n.toNat := h.1
  have hanswer : ¬ (entryInode w.buf w.dirOffset ≠ 0 ∧ w.dirIndex = n.toNat) := by
    simpa only [Search.answers, Walk.live, decide_eq_true_eq] using h.2
  rw [direntryFrom, direntryLoop, if_pos henter]
  dsimp only
  rw [if_neg hanswer, advance, direntryFrom]
  simp only [Walk.recLen, Search.counted, Walk.live, decide_eq_true_eq]
  split_ifs <;> rfl

theorem direntryFrom_stops (n : BitVec 32) (fuel : ℕ) (w : Walk)
    (h : ¬ (Search.index n).goesOn inode w) :
    (direntryFrom fs disk inode n (fuel + 1) w).isSome := by
  rw [direntryFrom, direntryLoop]
  by_cases henter : w.totalOffset < iSize inode ∧ w.dirIndex ≤ n.toNat
  · have hanswer : entryInode w.buf w.dirOffset ≠ 0 ∧ w.dirIndex = n.toNat := by
      have hans := not_not.mp (not_and.mp h henter)
      simpa only [Search.answers, Walk.live, decide_eq_true_eq] using hans
    rw [if_pos henter]
    dsimp only
    rw [if_pos hanswer]
    rfl
  · rw [if_neg henter]
    rfl

theorem ext2Direntry_isSome_iff (heap : Region) (ino : ℕ) (n : BitVec 32) :
    (∃ fuel, (ext2Direntry fs disk heap inode fuel ino n.toNat).isSome) ↔
      WalkEnds fs disk inode (.index n) heap := by
  have hcall : ∀ fuel, ext2Direntry fs disk heap inode fuel ino n.toNat =
      direntryFrom fs disk inode n fuel (startWalk disk inode heap) := fun _ => rfl
  have hgoes := direntryFrom_goesOn fs disk inode n
  constructor
  · rintro ⟨fuel, hsome⟩
    by_contra hnot
    rw [hcall, fuel_running (fun _ => rfl) hgoes (passes_of_not_ends hnot fuel)] at hsome
    cases hsome
  · intro hends
    obtain ⟨k, hpass, hstop⟩ := hends.exists_first
    refine ⟨k + 1, ?_⟩
    rw [hcall, fuel_passes hgoes hpass]
    exact direntryFrom_stops fs disk inode n 0 _ hstop

variable (heap : ℕ → Region) (lowStrlen : ℕ → ℕ)

def finddirFrom (name : Region) (fuel : ℕ) (w : Walk) : Option (Option Region) :=
  finddirLoop fs disk heap lowStrlen inode name fuel w.buf w.blockIndex w.dirOffset w.totalOffset

theorem finddirFrom_goesOn (name : Region) (fuel : ℕ) (w : Walk)
    (h : (Search.name name).goesOn inode w) :
    finddirFrom fs disk inode heap lowStrlen name (fuel + 1) w =
      finddirFrom fs disk inode heap lowStrlen name fuel
        (advance fs disk inode (.name name) w) := by
  have henter : w.totalOffset < iSize inode := h.1.1
  have hanswer : ¬ (entryInode w.buf w.dirOffset ≠ 0 ∧ memcmp (fun i => w.buf (w.dirOffset + 8 + i))
      name (entryNameLen w.buf w.dirOffset) 0 = 0) := by
    simpa only [Search.answers, Walk.live, decide_eq_true_eq] using h.2
  rw [finddirFrom, finddirLoop, if_pos henter]
  dsimp only
  rw [if_neg hanswer, finddirFrom]
  by_cases hnext : fs.blockSize ≤ add32 w.dirOffset (entryRecLen w.buf w.dirOffset)
  · rw [if_pos hnext, advance, Walk.recLen, if_pos hnext]
  · rw [if_neg hnext, advance, Walk.recLen, if_neg hnext]

/-- A search by name that is left has a result, unless the inode it found is not valid. -/
theorem finddirFrom_stops (name : Region) (fuel : ℕ) (w : Walk)
    (h : ¬ (Search.name name).goesOn inode w) :
    (finddirFrom fs disk inode heap lowStrlen name (fuel + 1) w).isSome ∨
      (Search.name name).enters inode w ∧ (Search.name name).answers w ∧
        ext2ReadInode fs disk (heap 3) (entryInode w.buf w.dirOffset) = none := by
  rw [finddirFrom, finddirLoop]
  by_cases henter : w.totalOffset < iSize inode
  · have hanswer := not_not.mp (not_and.mp h ⟨henter, trivial⟩)
    have hfound : entryInode w.buf w.dirOffset ≠ 0 ∧ memcmp (fun i => w.buf (w.dirOffset + 8 + i))
        name (entryNameLen w.buf w.dirOffset) 0 = 0 := by
      simpa only [Search.answers, Walk.live, decide_eq_true_eq] using hanswer
    rw [if_pos henter]
    dsimp only
    rw [if_pos hfound]
    cases hino : ext2ReadInode fs disk (heap 3) (entryInode w.buf w.dirOffset) with
    | none => exact Or.inr ⟨⟨henter, trivial⟩, hanswer, rfl⟩
    | some i => exact Or.inl rfl
  · rw [if_neg henter]
    exact Or.inl rfl

/-- The inode number that a search by name found is not valid. -/
def FinddirPanics (name : Region) : Prop :=
  ∃ k, Entered fs disk inode (.name name) (heap 1) k ∧
    (Search.name name).answers (walkAt fs disk inode (.name name) (heap 1) k) ∧
    ext2ReadInode fs disk (heap 3) (entryInode (walkAt fs disk inode (.name name) (heap 1) k).buf
      (walkAt fs disk inode (.name name) (heap 1) k).dirOffset) = none

theorem ext2Finddir_isSome_iff {bytes : CStrings.Bytes} {ino : ℕ}
    (hread : ext2ReadInode fs disk (heap 0) ino = some bytes) (name : Region) :
    (∃ fuel, (ext2Finddir fs disk heap lowStrlen fuel ino name).isSome) ∨
        FinddirPanics fs disk (regionOf bytes) heap name ↔
      WalkEnds fs disk (regionOf bytes) (.name name) (heap 1) := by
  have hcall : ∀ fuel, ext2Finddir fs disk heap lowStrlen fuel ino name =
      finddirFrom fs disk (regionOf bytes) heap lowStrlen name fuel
        (startWalk disk (regionOf bytes) (heap 1)) := by
    intro fuel
    rw [ext2Finddir, hread, Option.bind_some]
    rfl
  have hgoes := finddirFrom_goesOn fs disk (regionOf bytes) heap lowStrlen name
  constructor
  · rintro (⟨fuel, hsome⟩ | ⟨k, -, hanswer, -⟩)
    · by_contra hnot
      rw [hcall, fuel_running (fun _ => rfl) hgoes (passes_of_not_ends hnot fuel)] at hsome
      cases hsome
    · exact ⟨k, fun h => h.2 hanswer⟩
  · intro hends
    obtain ⟨k, hpass, hstop⟩ := hends.exists_first
    rcases finddirFrom_stops fs disk (regionOf bytes) heap lowStrlen name 0 _ hstop with
      hsome | ⟨henter, hanswer, hino⟩
    · exact Or.inl ⟨k + 1, by rwa [hcall, fuel_passes hgoes hpass]⟩
    · exact Or.inr ⟨k, ⟨hpass, henter⟩, hanswer, hino⟩

end Connection

section Records
variable (fs : Ext2Fs) (disk inode heap : Region)

/-- The `k`-th block of the directory as it is read; one with the number 0 is not, and leaves what
was read before it. -/
def dirBlock : ℕ → Region
  | 0 => ext2InodeReadBlock inode disk 0 heap
  | k + 1 => ext2InodeReadBlock inode disk (k + 1) (dirBlock k)

/-- The record at byte `t` of the directory: its length, and whether it is in use. -/
def recordLen (t : ℕ) : ℕ :=
  entryRecLen (dirBlock disk inode heap (t / fs.blockSize)) (t % fs.blockSize)

def recordLive (t : ℕ) : Bool :=
  entryInode (dirBlock disk inode heap (t / fs.blockSize)) (t % fs.blockSize) ≠ 0

def recordOffset : ℕ → ℕ
  | 0 => 0
  | i + 1 => recordOffset i + recordLen fs disk inode heap (recordOffset i)

def liveBefore (i : ℕ) : ℕ :=
  Nat.count (fun j => recordLive fs disk inode heap (recordOffset fs disk inode heap j) = true) i

/-- The `i`-th record is the entry with the index, or one whose name the name starts with. -/
def Wanted : Search → ℕ → Prop
  | .index n, i => recordLive fs disk inode heap (recordOffset fs disk inode heap i) = true ∧
      liveBefore fs disk inode heap i = n.toNat
  | .name s, i => recordLive fs disk inode heap (recordOffset fs disk inode heap i) = true ∧
      memcmp (fun k => dirBlock disk inode heap (recordOffset fs disk inode heap i / fs.blockSize)
          (recordOffset fs disk inode heap i % fs.blockSize + 8 + k)) s
        (entryNameLen (dirBlock disk inode heap (recordOffset fs disk inode heap i / fs.blockSize))
          (recordOffset fs disk inode heap i % fs.blockSize)) 0 = 0

/-- The records up to the `i`-th start before the end of the directory, and none before it is the
one that is wanted. -/
def Reached (s : Search) (i : ℕ) : Prop :=
  (∀ j ≤ i, recordOffset fs disk inode heap j % 2 ^ 32 < iSize inode) ∧
    ∀ j < i, ¬ Wanted fs disk inode heap s j

/-- A record leads on by its length. One in use without a length is counted again and again in the
search by index. -/
def LeadsOn : Search → ℕ → Prop
  | .index _, i => recordLen fs disk inode heap (recordOffset fs disk inode heap i) ≠ 0 ∨
      recordLive fs disk inode heap (recordOffset fs disk inode heap i) = true
  | .name _, i => recordLen fs disk inode heap (recordOffset fs disk inode heap i) ≠ 0

/-- Records that a search gets through: none starts in the last seven bytes of a block, skips a
block or stays where it is, and in a directory of nearly 4 GiB they come to its end. -/
structure Sound (s : Search) : Prop where
  header : ∀ i, Reached fs disk inode heap s i →
    recordOffset fs disk inode heap i % fs.blockSize + 8 ≤ fs.blockSize
  block : ∀ i, Reached fs disk inode heap s (i + 1) →
    recordOffset fs disk inode heap (i + 1) / fs.blockSize ≤
      recordOffset fs disk inode heap i / fs.blockSize + 1
  length : ∀ i, Reached fs disk inode heap s i →
    Wanted fs disk inode heap s i ∨ LeadsOn fs disk inode heap s i
  size : iSize inode + 65535 ≤ 2 ^ 32 ∨ ∃ i, ¬ Reached fs disk inode heap s i

def passed : Search → ℕ → ℕ
  | .index _, i => liveBefore fs disk inode heap i
  | .name _, _ => 0

def recordWalk (s : Search) (i : ℕ) : Walk where
  buf := dirBlock disk inode heap (recordOffset fs disk inode heap i / fs.blockSize)
  blockIndex := recordOffset fs disk inode heap i / fs.blockSize
  dirOffset := recordOffset fs disk inode heap i % fs.blockSize
  totalOffset := recordOffset fs disk inode heap i % 2 ^ 32
  dirIndex := passed fs disk inode heap s i

variable {fs disk inode heap} {s : Search} {i : ℕ}

theorem answers_recordWalk :
    s.answers (recordWalk fs disk inode heap s i) ↔ Wanted fs disk inode heap s i := by
  cases s <;> exact Iff.rfl

theorem moves_recordWalk :
    s.moves (recordWalk fs disk inode heap s i) ↔ LeadsOn fs disk inode heap s i := by
  cases s <;> exact Iff.rfl

theorem Reached.of_succ (h : Reached fs disk inode heap s (i + 1)) :
    Reached fs disk inode heap s i :=
  ⟨fun j hj => h.1 j (by omega), fun j hj => h.2 j (by omega)⟩

theorem counted_recordWalk (hwithin : s.within (passed fs disk inode heap s i))
    (hnot : ¬ Wanted fs disk inode heap s i) :
    s.counted (recordWalk fs disk inode heap s i) = passed fs disk inode heap s (i + 1) ∧
      s.within (passed fs disk inode heap s (i + 1)) := by
  cases s with
  | name name => exact ⟨rfl, trivial⟩
  | index n =>
    have hle : liveBefore fs disk inode heap i ≤ n.toNat := hwithin
    have hn := n.isLt
    have hsucc : passed fs disk inode heap (.index n) (i + 1) = liveBefore fs disk inode heap i +
        if recordLive fs disk inode heap (recordOffset fs disk inode heap i) = true then 1 else 0 :=
      Nat.count_succ _ i
    have hcounted : (Search.index n).counted (recordWalk fs disk inode heap (.index n) i) =
        if recordLive fs disk inode heap (recordOffset fs disk inode heap i) = true then
          add32 (liveBefore fs disk inode heap i) 1
        else liveBefore fs disk inode heap i := rfl
    rw [hcounted, hsucc]
    split_ifs with hlive
    · have hbelow : liveBefore fs disk inode heap i ≠ n.toNat := fun heq => hnot ⟨hlive, heq⟩
      exact ⟨add32_of_lt (by omega), show _ ≤ n.toNat by omega⟩
    · exact ⟨rfl, hle⟩

theorem Reached.within (h : Reached fs disk inode heap s i) :
    s.within (passed fs disk inode heap s i) := by
  induction i with
  | zero =>
    cases s with
    | index n => exact Nat.zero_le _
    | name name => trivial
  | succ i ih => exact (counted_recordWalk (ih h.of_succ) (h.2 i (Nat.lt_succ_self i))).2

/-- A round from a record whose header lies inside its block: it comes to the next record, or has
skipped a block and is behind the buffer. -/
theorem advance_recordWalk (hfs : fs.blockSize ≤ 2 ^ 31)
    (hheader : recordOffset fs disk inode heap i % fs.blockSize + 8 ≤ fs.blockSize)
    (hcount : s.counted (recordWalk fs disk inode heap s i) = passed fs disk inode heap s (i + 1)) :
    let w := advance fs disk inode s (recordWalk fs disk inode heap s i)
    w.totalOffset = recordOffset fs disk inode heap (i + 1) % 2 ^ 32 ∧
      w.dirIndex = passed fs disk inode heap s (i + 1) ∧
      (recordOffset fs disk inode heap (i + 1) / fs.blockSize ≤
          recordOffset fs disk inode heap i / fs.blockSize + 1 →
        w = recordWalk fs disk inode heap s (i + 1)) ∧
      (recordOffset fs disk inode heap i / fs.blockSize + 1 <
          recordOffset fs disk inode heap (i + 1) / fs.blockSize → ¬ HeaderInside fs w) := by
  obtain ⟨t, ht⟩ : ∃ t, recordOffset fs disk inode heap i = t := ⟨_, rfl⟩
  obtain ⟨r, hr⟩ : ∃ r, (recordWalk fs disk inode heap s i).recLen = r := ⟨_, rfl⟩
  rw [ht] at hheader
  have hrec : r < 65536 := hr ▸ field_lt _ 2
  have hnext : recordOffset fs disk inode heap (i + 1) = t + r := by
    rw [← ht, ← hr]
    rfl
  have hpos : 0 < fs.blockSize := by omega
  have hdiv := Nat.div_add_mod t fs.blockSize
  have hoff : add32 (t % fs.blockSize) r = t % fs.blockSize + r :=
    add32_of_lt (by omega)
  have htotal : add32 (t % 2 ^ 32) r = (t + r) % 2 ^ 32 := Nat.mod_add_mod _ _ _
  have hw : advance fs disk inode s (recordWalk fs disk inode heap s i) =
      if fs.blockSize ≤ t % fs.blockSize + r then
        ⟨dirBlock disk inode heap (t / fs.blockSize + 1), t / fs.blockSize + 1,
          t % fs.blockSize + r - fs.blockSize, (t + r) % 2 ^ 32, passed fs disk inode heap s (i + 1)⟩
      else ⟨dirBlock disk inode heap (t / fs.blockSize), t / fs.blockSize, t % fs.blockSize + r,
        (t + r) % 2 ^ 32, passed fs disk inode heap s (i + 1)⟩ := by
    rw [advance, hcount, hr]
    simp only [recordWalk, ht, hoff, htotal]
    split_ifs with hle
    · rw [sub32_of_le (by omega) hle]
      rfl
    · rfl
  have hsum : t + r = fs.blockSize * (t / fs.blockSize) + (t % fs.blockSize + r) := by omega
  have hquot : (t + r) / fs.blockSize = t / fs.blockSize + (t % fs.blockSize + r) / fs.blockSize := by
    rw [hsum, Nat.mul_add_div hpos]
  have hrem : (t + r) % fs.blockSize = (t % fs.blockSize + r) % fs.blockSize := by
    rw [hsum, Nat.mul_add_mod]
  rw [hnext, ht, hw, hquot]
  by_cases hle : fs.blockSize ≤ t % fs.blockSize + r
  · rw [if_pos hle]
    have hone : 1 ≤ (t % fs.blockSize + r) / fs.blockSize := (Nat.one_le_div_iff hpos).mpr hle
    refine ⟨rfl, rfl, fun hblock => ?_, fun hskip hin => ?_⟩
    · have hquot1 : (t % fs.blockSize + r) / fs.blockSize = 1 := by omega
      have hlt : t % fs.blockSize + r < 2 * fs.blockSize := by
        have hbelow : (t % fs.blockSize + r) / fs.blockSize < 2 := by omega
        exact (Nat.div_lt_iff_lt_mul hpos).mp hbelow
      have hmod : (t % fs.blockSize + r) % fs.blockSize = t % fs.blockSize + r - fs.blockSize := by
        rw [Nat.mod_eq_sub_mod hle, Nat.mod_eq_of_lt (by omega)]
      rw [recordWalk, hnext, hquot, hquot1, hrem, hmod]
    · have htwo : 2 ≤ (t % fs.blockSize + r) / fs.blockSize := by omega
      have hge := (Nat.le_div_iff_mul_le hpos).mp htwo
      have hin' : t % fs.blockSize + r - fs.blockSize + 8 ≤ fs.blockSize := hin
      omega
  · rw [if_neg hle]
    have hlt : t % fs.blockSize + r < fs.blockSize := Nat.lt_of_not_le hle
    have hquot0 : (t % fs.blockSize + r) / fs.blockSize = 0 := Nat.div_eq_of_lt hlt
    refine ⟨rfl, rfl, fun _ => ?_, fun hskip => ?_⟩
    · rw [recordWalk, hnext, hquot, hquot0, hrem, Nat.mod_eq_of_lt hlt]
      rfl
    · omega

theorem walkAt_zero : walkAt fs disk inode s heap 0 = recordWalk fs disk inode heap s 0 := by
  have hpassed : passed fs disk inode heap s 0 = 0 := by cases s <;> rfl
  rw [recordWalk, hpassed]
  simp only [recordOffset, Nat.zero_div, Nat.zero_mod, dirBlock]
  rfl

theorem walkAt_succ (k : ℕ) : walkAt fs disk inode s heap (k + 1) =
    advance fs disk inode s (walkAt fs disk inode s heap k) := Function.iterate_succ_apply' ..

theorem Reached.entered (hfs : fs.blockSize ≤ 2 ^ 31)
    (hinside : HeadersInside fs disk inode s heap) (h : Reached fs disk inode heap s i) :
    Entered fs disk inode s heap i ∧
      walkAt fs disk inode s heap i = recordWalk fs disk inode heap s i := by
  induction i with
  | zero =>
    refine ⟨⟨fun j hj => absurd hj (Nat.not_lt_zero j), ?_⟩, walkAt_zero⟩
    rw [walkAt_zero]
    exact ⟨h.1 0 le_rfl, h.within⟩
  | succ i ih =>
    obtain ⟨hentered, hwalk⟩ := ih h.of_succ
    have hheader := hinside i hentered
    have hnot := h.2 i (Nat.lt_succ_self i)
    obtain ⟨hcount, hwithin⟩ := counted_recordWalk h.of_succ.within hnot
    rw [hwalk] at hheader
    obtain ⟨htotal, hindex, hnext, hskip⟩ := advance_recordWalk hfs hheader hcount
    rw [← hwalk, ← walkAt_succ] at htotal hindex hnext hskip
    have hanswer : ¬ s.answers (walkAt fs disk inode s heap i) := by
      rw [hwalk, answers_recordWalk]
      exact hnot
    have hentered' : Entered fs disk inode s heap (i + 1) :=
      (entered_succ fs disk inode s).mpr ⟨hentered, hanswer,
        by rw [htotal]; exact h.1 (i + 1) le_rfl, by rw [hindex]; exact hwithin⟩
    refine ⟨hentered', hnext ?_⟩
    by_contra hlt
    exact hskip (Nat.lt_of_not_le hlt) (hinside (i + 1) hentered')

theorem Sound.reached (hfs : fs.blockSize ≤ 2 ^ 31) (hsound : Sound fs disk inode heap s)
    (h : Entered fs disk inode s heap i) : Reached fs disk inode heap s i ∧
      walkAt fs disk inode s heap i = recordWalk fs disk inode heap s i := by
  induction i with
  | zero =>
    refine ⟨⟨fun j hj => ?_, fun j hj => absurd hj (Nat.not_lt_zero j)⟩, walkAt_zero⟩
    obtain rfl := Nat.le_zero.mp hj
    have htotal := h.2.1
    rwa [walkAt_zero] at htotal
  | succ i ih =>
    obtain ⟨hentered, hanswer, henter⟩ := (entered_succ fs disk inode s).mp h
    obtain ⟨hreached, hwalk⟩ := ih hentered
    rw [hwalk, answers_recordWalk] at hanswer
    obtain ⟨hcount, -⟩ := counted_recordWalk hreached.within hanswer
    obtain ⟨htotal, -, hnext, -⟩ := advance_recordWalk hfs (hsound.header i hreached) hcount
    rw [← hwalk, ← walkAt_succ] at htotal hnext
    have hreached' : Reached fs disk inode heap s (i + 1) := by
      refine ⟨fun j hj => ?_, fun j hj => ?_⟩
      · rcases Nat.lt_succ_iff_lt_or_eq.mp (Nat.lt_succ_of_le hj) with hlt | rfl
        · exact hreached.1 j (by omega)
        · rw [← htotal]
          exact henter.1
      · rcases Nat.lt_succ_iff_lt_or_eq.mp hj with hlt | rfl
        · exact hreached.2 j hlt
        · exact hanswer
    exact ⟨hreached', hnext (hsound.block i hreached')⟩

end Records

section Progress
variable {fs : Ext2Fs} {disk inode : Region} {s : Search} {w : Walk}

structure InWords (w : Walk) : Prop where
  dirOffset : w.dirOffset < 2 ^ 32
  totalOffset : w.totalOffset < 2 ^ 32

theorem advance_inWords (fs : Ext2Fs) (disk inode : Region) (s : Search) (w : Walk) :
    InWords (advance fs disk inode s w) := by
  rw [advance]
  split_ifs
  · exact ⟨Nat.mod_lt _ (by decide), Nat.mod_lt _ (by decide)⟩
  · exact ⟨Nat.mod_lt _ (by decide), Nat.mod_lt _ (by decide)⟩

theorem walkAt_inWords (fs : Ext2Fs) (disk inode : Region) (s : Search) (heap : Region) (k : ℕ) :
    InWords (walkAt fs disk inode s heap k) := by
  cases k with
  | zero => exact ⟨by change 0 < 2 ^ 32; decide, by change 0 < 2 ^ 32; decide⟩
  | succ k =>
    rw [walkAt, Function.iterate_succ_apply']
    exact advance_inWords fs disk inode s _

theorem advance_fixed (hw : InWords w) (hinside : HeaderInside fs w) (hmoves : ¬ s.moves w) :
    advance fs disk inode s w = w := by
  have hrec : w.recLen = 0 := by
    cases s with
    | index n => exact not_not.mp (not_or.mp hmoves).1
    | name name => exact not_not.mp hmoves
  have hcount : s.counted w = w.dirIndex := by
    cases s with
    | index n => exact if_neg (not_or.mp hmoves).2
    | name name => rfl
  unfold HeaderInside at hinside
  rw [advance, hrec, hcount, add32_of_lt hw.dirOffset, add32_of_lt hw.totalOffset,
    if_neg (by omega)]
  rfl

def remaining (inode : Region) : Search → Walk → ℕ
  | .index n, w => iSize inode - w.totalOffset + (n.toNat - w.dirIndex)
  | .name _, w => iSize inode - w.totalOffset

theorem advance_totalOffset (h : w.totalOffset + w.recLen < 2 ^ 32) :
    (advance fs disk inode s w).totalOffset = w.totalOffset + w.recLen := by
  rw [advance]
  split_ifs
  · exact add32_of_lt h
  · exact add32_of_lt h

theorem advance_dirIndex : (advance fs disk inode s w).dirIndex = s.counted w := by
  rw [advance]
  split_ifs
  · rfl
  · rfl

theorem remaining_advance (hwrap : w.totalOffset + w.recLen < 2 ^ 32) (hgoes : s.goesOn inode w)
    (hmoves : s.moves w) : remaining inode s (advance fs disk inode s w) < remaining inode s w := by
  cases s with
  | index n =>
    have henter : w.totalOffset < iSize inode ∧ w.dirIndex ≤ n.toNat := hgoes.1
    have hn := n.isLt
    rw [remaining, remaining, advance_totalOffset hwrap, advance_dirIndex, Search.counted]
    split_ifs with hlive
    · -- A live entry with the index would have been the answer.
      have hbelow : w.dirIndex ≠ n.toNat := fun heq => hgoes.2 ⟨hlive, heq⟩
      rw [add32_of_lt (by omega)]
      omega
    · have hmove : w.recLen ≠ 0 := hmoves.resolve_right hlive
      omega
  | name name =>
    have henter : w.totalOffset < iSize inode := hgoes.1.1
    have hmove : w.recLen ≠ 0 := hmoves
    rw [remaining, remaining, advance_totalOffset hwrap]
    omega

end Progress

theorem walk_iff {fs : Ext2Fs} (hfs : fs.blockSize ≤ 2 ^ 31) (disk inode heap : Region)
    (s : Search) :
    WalkEnds fs disk inode s heap ∧ HeadersInside fs disk inode s heap ↔
      Sound fs disk inode heap s := by
  constructor
  · rintro ⟨hends, hinside⟩
    refine ⟨fun i hi => ?_, fun i hi => ?_, fun i hi => ?_, Or.inr ?_⟩
    · obtain ⟨hentered, hwalk⟩ := hi.entered hfs hinside
      have hheader := hinside i hentered
      rwa [hwalk] at hheader
    · obtain ⟨hentered, hwalk⟩ := hi.of_succ.entered hfs hinside
      have hheader := hinside i hentered
      rw [hwalk] at hheader
      obtain ⟨hcount, -⟩ := counted_recordWalk hi.of_succ.within (hi.2 i (Nat.lt_succ_self i))
      obtain ⟨-, -, -, hskip⟩ := advance_recordWalk hfs hheader hcount
      rw [← hwalk, ← walkAt_succ] at hskip
      by_contra hlt
      exact hskip (Nat.lt_of_not_le hlt) (hinside (i + 1) (hi.entered hfs hinside).1)
    · -- The walk would stay at such a record.
      obtain ⟨hentered, hwalk⟩ := hi.entered hfs hinside
      by_contra hnot
      rw [not_or, ← answers_recordWalk, ← moves_recordWalk, ← hwalk] at hnot
      exact not_ends_of_fixed hentered.1 ⟨hentered.2, hnot.1⟩
        (advance_fixed (walkAt_inWords fs disk inode s heap i) (hinside i hentered) hnot.2) hends
    · obtain ⟨k, hstop⟩ := hends
      refine ⟨k + 1, fun hreached => hstop ?_⟩
      obtain ⟨hentered, -⟩ := hreached.entered hfs hinside
      obtain ⟨hlast, hanswer, -⟩ := (entered_succ fs disk inode s).mp hentered
      exact ⟨hlast.2, hanswer⟩
  · intro hsound
    refine ⟨?_, fun k hk => ?_⟩
    · rcases hsound.size with hsize | ⟨i, hi⟩
      · -- No total offset wraps, so that every round leaves less of the directory.
        apply Ends.of_measure (remaining inode s) 0
        intro k _ hpass hgoes
        obtain ⟨hreached, hwalk⟩ := hsound.reached hfs ⟨hpass, hgoes.1⟩
        have hmoves : s.moves (walkAt fs disk inode s heap k) := by
          rw [hwalk, moves_recordWalk]
          refine (hsound.length k hreached).resolve_left fun hwanted => hgoes.2 ?_
          change s.answers (walkAt fs disk inode s heap k)
          rwa [hwalk, answers_recordWalk]
        have hrec : (walkAt fs disk inode s heap k).recLen < 65536 := field_lt _ 2
        have htotal : (walkAt fs disk inode s heap k).totalOffset < iSize inode := hgoes.1.1
        rw [Function.iterate_succ_apply']
        exact remaining_advance (by change (walkAt fs disk inode s heap k).totalOffset +
          (walkAt fs disk inode s heap k).recLen < _; omega) hgoes hmoves
      · by_contra hnot
        have hpass := passes_of_not_ends hnot
        exact hi (hsound.reached hfs ⟨hpass i, (hpass (i + 1) i (Nat.lt_succ_self i)).1⟩).1
    · obtain ⟨hreached, hwalk⟩ := hsound.reached hfs hk
      rw [hwalk]
      exact hsound.header k hreached

/-- `ext2_direntry` returns and reads no header outside its block buffer iff the records it gets
to are sound, and so does `ext2_finddir`, which may panic over the inode it found. -/
theorem directory_walk_iff {fs : Ext2Fs} (hfs : fs.blockSize ≤ 2 ^ 31) (disk : Region) :
    (∀ inode heap ino (n : BitVec 32),
      (∃ fuel, (ext2Direntry fs disk heap inode fuel ino n.toNat).isSome) ∧
          HeadersInside fs disk inode (.index n) heap ↔ Sound fs disk inode heap (.index n)) ∧
    ∀ inode heap lowStrlen ino name, ext2ReadInode fs disk (heap 0) ino = some inode →
      (((∃ fuel, (ext2Finddir fs disk heap lowStrlen fuel ino name).isSome) ∨
          FinddirPanics fs disk (regionOf inode) heap name) ∧
        HeadersInside fs disk (regionOf inode) (.name name) (heap 1) ↔
          Sound fs disk (regionOf inode) (heap 1) (.name name)) := by
  constructor
  · intro inode heap ino n
    rw [ext2Direntry_isSome_iff]
    exact walk_iff hfs disk inode heap (.index n)
  · intro inode heap lowStrlen ino name hread
    rw [ext2Finddir_isSome_iff fs disk heap lowStrlen hread]
    exact walk_iff hfs disk (regionOf inode) (heap 1) (.name name)

/-- A search past the only record of a directory. -/
theorem directory_walk_iff_one_record :
    (∃ fuel, (ext2Direntry smallFs farDisk (fun _ => 0) (oneBlockInode 6) fuel 2
      (5 : BitVec 32).toNat).isSome) ∧
      HeadersInside smallFs farDisk (oneBlockInode 6) (.index 5) (fun _ => 0) := by
  have hsize : iSize (oneBlockInode 6) = 1024 := by decide
  have hlen : recordLen smallFs farDisk (oneBlockInode 6) (fun _ => 0) 0 = 1024 := by
    decide +kernel
  have hnext : recordOffset smallFs farDisk (oneBlockInode 6) (fun _ => 0) 1 = 1024 := by
    rw [recordOffset, recordOffset, hlen]
  have hfirst : ∀ i, Reached smallFs farDisk (oneBlockInode 6) (fun _ => 0) (.index 5) i →
      i = 0 := by
    intro i hi
    by_contra hne
    have hbelow := hi.1 1 (by omega)
    rw [hnext, hsize] at hbelow
    omega
  refine ((directory_walk_iff (by decide) farDisk).1 _ _ 2 5).mpr
    ⟨fun i hi => ?_, fun i hi => ?_, fun i hi => ?_, Or.inl ?_⟩
  · rw [hfirst i hi]
    change 0 % 1024 + 8 ≤ 1024
    decide
  · exact absurd (hfirst _ hi) (Nat.succ_ne_zero i)
  · rw [hfirst i hi]
    refine Or.inr (Or.inl ?_)
    rw [recordOffset, hlen]
    decide
  · rw [hsize]
    decide

/-- The only block of the directory is zeroed: a record of length zero that is
not in use, at which the walk stays. -/
theorem zeroed_directory_loops :
    iSize (oneBlockInode 1) = 1024 ∧
    ¬ WalkEnds smallFs (fun _ => 0) (oneBlockInode 1) (.index 0) (fun _ => 0) ∧
    ∀ fuel ino, ext2Direntry smallFs (fun _ => 0) (fun _ => 0) (oneBlockInode 1) fuel ino 0 =
      none := by
  have hsize : iSize (oneBlockInode 1) = 1024 := by decide
  have hlive : ¬ (startWalk (fun _ => 0) (oneBlockInode 1) fun _ => 0).live = true := by decide
  have hrec : (startWalk (fun _ => 0) (oneBlockInode 1) fun _ => 0).recLen = 0 := by decide
  have hstay : ¬ WalkEnds smallFs (fun _ => 0) (oneBlockInode 1) (.index 0) (fun _ => 0) := by
    apply not_ends_of_fixed (k := 0)
    · intro j hj
      omega
    · refine ⟨⟨?_, Nat.zero_le _⟩, fun h => hlive h.1⟩
      rw [hsize]
      change 0 < 1024
      decide
    · apply advance_fixed
      · exact walkAt_inWords smallFs _ _ (.index 0) _ 0
      · change 0 + 8 ≤ 1024
        decide
      · rintro (h | h)
        · exact h hrec
        · exact hlive h
  refine ⟨hsize, hstay, fun fuel ino => ?_⟩
  have hnever : ¬ (ext2Direntry smallFs (fun _ => 0) (fun _ => 0) (oneBlockInode 1) fuel ino
      0).isSome := by
    intro h
    exact hstay ((ext2Direntry_isSome_iff _ _ _ _ ino 0).mp ⟨fuel, h⟩)
  exact Option.not_isSome_iff_eq_none.mp hnever

end Bingos.Ext2
