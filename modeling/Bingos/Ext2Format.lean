import Bingos.Ext2Model

set_option autoImplicit false

/-! The ext2 format: what a superblock and its group descriptors say, and where an inode is. -/
namespace Bingos.Ext2

open CStrings ByteMemory

def blockSizeOf (logBlockSize : ℕ) : ℕ := 1024 * 2 ^ logBlockSize

def firstDataBlockOf (logBlockSize : ℕ) : ℕ := if logBlockSize = 0 then 1 else 0

def groupsOf (logBlockSize blocksCount blocksPerGroup : ℕ) : ℕ :=
  (blocksCount - firstDataBlockOf logBlockSize + blocksPerGroup - 1) / blocksPerGroup

def descriptorsAt (logBlockSize : ℕ) : ℕ :=
  (firstDataBlockOf logBlockSize + 1) * blockSizeOf logBlockSize

/-- A valid geometry: blocks up to 64 KiB, inodes of 128 bytes or a larger power of two, and
every inode table in its own group and behind the descriptor table. -/
structure Geometry where
  logBlockSize : ℕ
  inodeSize : ℕ
  inodesPerGroup : ℕ
  blocksPerGroup : ℕ
  blocksCount : ℕ
  inodesCount : ℕ
  inodeTable : ℕ → ℕ
  logBlockSize_le : logBlockSize ≤ 6
  inodeSize_pow : ∃ k, inodeSize = 128 * 2 ^ k
  inodeSize_le : inodeSize ≤ blockSizeOf logBlockSize
  inodeSize_lt : inodeSize < 2 ^ 16
  inodesPerGroup_pos : 0 < inodesPerGroup
  inodesPerGroup_lt : inodesPerGroup < 2 ^ 32
  blocksPerGroup_pos : 0 < blocksPerGroup
  blocksPerGroup_lt : blocksPerGroup < 2 ^ 32
  blocksCount_lt : blocksCount < 2 ^ 32
  inodesCount_lt : inodesCount < 2 ^ 32
  inodesCount_le : inodesCount ≤ groupsOf logBlockSize blocksCount blocksPerGroup * inodesPerGroup
  inodeTable_lt : ∀ g < groupsOf logBlockSize blocksCount blocksPerGroup, inodeTable g < blocksCount
  inodeTable_group : ∀ g < groupsOf logBlockSize blocksCount blocksPerGroup,
    firstDataBlockOf logBlockSize + g * blocksPerGroup ≤ inodeTable g ∧
      inodeTable g < firstDataBlockOf logBlockSize + (g + 1) * blocksPerGroup
  inodeTable_behind : ∀ g < groupsOf logBlockSize blocksCount blocksPerGroup,
    descriptorsAt logBlockSize + 32 * groupsOf logBlockSize blocksCount blocksPerGroup ≤
      inodeTable g * blockSizeOf logBlockSize

namespace Geometry

variable (G : Geometry)

def blockSize : ℕ := blockSizeOf G.logBlockSize

def groups : ℕ := groupsOf G.logBlockSize G.blocksCount G.blocksPerGroup

def group (ino : ℕ) : ℕ := (ino - 1) / G.inodesPerGroup

def indexInGroup (ino : ℕ) : ℕ := (ino - 1) % G.inodesPerGroup

def inodePosition (ino : ℕ) : ℕ :=
  G.inodeTable (G.group ino) * G.blockSize + G.indexInGroup ino * G.inodeSize

structure Formatted (disk : Region) : Prop where
  blocksCount : field disk (1024 + 4) 4 = G.blocksCount
  logBlockSize : field disk (1024 + 24) 4 = G.logBlockSize
  blocksPerGroup : field disk (1024 + 32) 4 = G.blocksPerGroup
  inodesPerGroup : field disk (1024 + 40) 4 = G.inodesPerGroup
  magic : field disk (1024 + 56) 2 = ext2SuperMagic
  inodeSize : field disk (1024 + 88) 2 = G.inodeSize
  inodeTable : ∀ g < G.groups,
    field disk (descriptorsAt G.logBlockSize + 32 * g + 8) 4 = G.inodeTable g

end Geometry

variable {g ino start start' w : ℕ}

theorem field_congr {b c : Region}
    (h : ∀ i < w, b (start + i) = c (start' + i)) : field b start w = field c start' w := by
  rw [field, field]
  congr 1
  exact List.map_congr_left fun i hi => h i (List.mem_range.mp hi)

def place (start : ℕ) (bs : Bytes) (r : Region) : Region := fun p =>
  if start ≤ p ∧ p < start + bs.length then bs.getD (p - start) 0 else r p

theorem field_place_self (start w v : ℕ) (r : Region) :
    field (place start (toLE w v) r) start w = v % 256 ^ w := by
  have hbytes : (List.range w).map (fun i => place start (toLE w v) r (start + i)) = toLE w v := by
    refine List.ext_getElem (by simp) fun i h₁ h₂ => ?_
    rw [List.getElem_map, List.getElem_range, place, if_pos (by omega), Nat.add_sub_cancel_left,
      List.getD_eq_getElem _ _ h₂]
  rw [field, hbytes, ofLE_toLE]

theorem field_place_other {bs : Bytes} {r : Region}
    (h : start' + w ≤ start ∨ start + bs.length ≤ start') :
    field (place start bs r) start' w = field r start' w := by
  refine field_congr fun i hi => ?_
  rw [place, if_neg (by omega)]

namespace Geometry

variable {G : Geometry}

theorem blockSize_bounds : 1024 ≤ G.blockSize ∧ G.blockSize ≤ 65536 := by
  have hle := Nat.pow_le_pow_right (n := 2) (by decide) G.logBlockSize_le
  have hpos := Nat.one_le_two_pow (n := G.logBlockSize)
  rw [blockSize, blockSizeOf]
  omega

theorem blockSize_ge (h : 0 < G.logBlockSize) : 2048 ≤ G.blockSize := by
  have hpow := Nat.pow_le_pow_right (n := 2) (by decide) h
  rw [blockSize, blockSizeOf]
  omega

theorem blockSize_eq : G.blockSize = 32 * (32 * 2 ^ G.logBlockSize) := by
  rw [blockSize, blockSizeOf]
  omega

theorem descriptorsAt_eq : ∃ m, descriptorsAt G.logBlockSize = 32 * m :=
  ⟨(firstDataBlockOf G.logBlockSize + 1) * (32 * 2 ^ G.logBlockSize), by
    rw [descriptorsAt, ← blockSize, blockSize_eq, Nat.mul_left_comm]⟩

theorem descriptorsAt_ge : 2048 ≤ descriptorsAt G.logBlockSize := by
  rw [descriptorsAt, firstDataBlockOf, blockSizeOf]
  rcases Nat.eq_zero_or_pos G.logBlockSize with h | h
  · simp [h]
  · have hpow := Nat.pow_le_pow_right (n := 2) (by decide) h
    rw [if_neg (Nat.pos_iff_ne_zero.mp h)]
    omega

theorem group_lt (h1 : 1 ≤ ino) (hino : ino ≤ G.inodesCount) : G.group ino < G.groups := by
  have hle := G.inodesCount_le
  exact Nat.div_lt_of_lt_mul (by rw [Nat.mul_comm]; exact Nat.lt_of_lt_of_le (by omega) hle)

theorem inodeTable_pos (hg : g < G.groups) : 0 < G.inodeTable g := by
  have hat := G.descriptorsAt_ge
  have hbehind := G.inodeTable_behind g hg
  by_contra h0
  rw [Nat.eq_zero_of_not_pos h0] at hbehind
  omega

theorem inodeTable_lt_of_lt {k : ℕ} (hg : g < G.groups) (hk : k < g) :
    G.inodeTable k < G.inodeTable g := by
  have hbefore := (G.inodeTable_group k (hk.trans hg)).2
  have hafter := (G.inodeTable_group g hg).1
  have hmul := Nat.mul_le_mul_right G.blocksPerGroup (Nat.succ_le_of_lt hk)
  rw [Nat.succ_eq_add_one] at hmul
  omega

theorem inodePosition_ge (h1 : 1 ≤ ino) (hino : ino ≤ G.inodesCount) :
    descriptorsAt G.logBlockSize + 32 * G.groups ≤ G.inodePosition ino :=
  (G.inodeTable_behind _ (group_lt h1 hino)).trans (Nat.le_add_right _ _)

theorem Formatted.congr {disk disk' : Region} (h : G.Formatted disk)
    (hsame : ∀ p < descriptorsAt G.logBlockSize + 32 * G.groups, disk' p = disk p) :
    G.Formatted disk' := by
  have hat := G.descriptorsAt_ge
  have hfield : ∀ start w, start + w ≤ descriptorsAt G.logBlockSize + 32 * G.groups →
      field disk' start w = field disk start w :=
    fun start w hle => field_congr fun i hi => hsame _ (by omega)
  refine ⟨?_, ?_, ?_, ?_, ?_, ?_, fun g hg => ?_⟩
  · rw [hfield _ _ (by omega), h.blocksCount]
  · rw [hfield _ _ (by omega), h.logBlockSize]
  · rw [hfield _ _ (by omega), h.blocksPerGroup]
  · rw [hfield _ _ (by omega), h.inodesPerGroup]
  · rw [hfield _ _ (by omega), h.magic]
  · rw [hfield _ _ (by omega), h.inodeSize]
  · rw [hfield _ _ (by omega), h.inodeTable g hg]

end Geometry

section Blank

variable (G : Geometry)

def descriptorRegion : Region := fun p =>
  if descriptorsAt G.logBlockSize ≤ p ∧ p < descriptorsAt G.logBlockSize + 32 * G.groups then
    place 8 (toLE 4 (G.inodeTable ((p - descriptorsAt G.logBlockSize) / 32))) (fun _ => 0)
      ((p - descriptorsAt G.logBlockSize) % 32)
  else 0

def blankDisk : Region :=
  place (1024 + 4) (toLE 4 G.blocksCount) <| place (1024 + 24) (toLE 4 G.logBlockSize) <|
    place (1024 + 32) (toLE 4 G.blocksPerGroup) <| place (1024 + 40) (toLE 4 G.inodesPerGroup) <|
      place (1024 + 56) (toLE 2 ext2SuperMagic) <| place (1024 + 88) (toLE 2 G.inodeSize) <|
        descriptorRegion G

theorem blankDisk_behind {p : ℕ} (hp : 2048 ≤ p) : blankDisk G p = descriptorRegion G p := by
  simp only [blankDisk, place, length_toLE]
  rw [if_neg (by omega), if_neg (by omega), if_neg (by omega), if_neg (by omega),
    if_neg (by omega), if_neg (by omega)]

theorem field_descriptorRegion (hg : g < G.groups) :
    field (descriptorRegion G) (descriptorsAt G.logBlockSize + 32 * g + 8) 4 = G.inodeTable g := by
  have hself := field_place_self 8 4 (G.inodeTable g) (fun _ => 0)
  have hlt := (G.inodeTable_lt g hg).trans G.blocksCount_lt
  rw [Nat.mod_eq_of_lt (by omega)] at hself
  rw [← hself]
  refine field_congr fun i hi => ?_
  have hdiv : (descriptorsAt G.logBlockSize + 32 * g + 8 + i - descriptorsAt G.logBlockSize) / 32 =
      g := by omega
  have hmod : (descriptorsAt G.logBlockSize + 32 * g + 8 + i - descriptorsAt G.logBlockSize) % 32 =
      8 + i := by omega
  rw [descriptorRegion, if_pos (by omega), hdiv, hmod]

theorem formatted_blank : G.Formatted (blankDisk G) := by
  have hat := G.descriptorsAt_ge
  have hlog := G.logBlockSize_le
  have hother : ∀ {start start' w v k : ℕ} {r : Region}, start' + k ≤ start ∨ start + w ≤ start' →
      field (place start (toLE w v) r) start' k = field r start' k :=
    fun h => field_place_other (by rwa [length_toLE])
  refine ⟨?_, ?_, ?_, ?_, ?_, ?_, fun g hg => ?_⟩
  · rw [blankDisk, field_place_self]
    exact Nat.mod_eq_of_lt G.blocksCount_lt
  · rw [blankDisk, hother (by omega), field_place_self]
    exact Nat.mod_eq_of_lt (by omega)
  · rw [blankDisk, hother (by omega), hother (by omega), field_place_self]
    exact Nat.mod_eq_of_lt G.blocksPerGroup_lt
  · rw [blankDisk, hother (by omega), hother (by omega), hother (by omega), field_place_self]
    exact Nat.mod_eq_of_lt G.inodesPerGroup_lt
  · rw [blankDisk, hother (by omega), hother (by omega), hother (by omega), hother (by omega),
      field_place_self]
    rfl
  · rw [blankDisk, hother (by omega), hother (by omega), hother (by omega), hother (by omega),
      hother (by omega), field_place_self]
    exact Nat.mod_eq_of_lt G.inodeSize_lt
  · rw [← field_descriptorRegion G hg]
    exact field_congr fun i _ => blankDisk_behind G (by omega)

end Blank

end Bingos.Ext2
