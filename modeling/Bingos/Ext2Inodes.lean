import Bingos.Ext2Format

set_option autoImplicit false

/-! Which bytes of the disk an inode read returns, and for which geometries they are the inode. -/
namespace Bingos.Ext2

open CStrings ByteMemory

variable {disk heap : Region} {start w : ℕ}

theorem superblock_read (h : start + w ≤ 1024) :
    field (ext2ReadBlock disk 1 heap 0) start w = field disk (1024 + start) w := by
  refine field_congr fun i hi => ?_
  rw [ext2ReadBlock, if_neg Nat.one_ne_zero]
  simp only [Nat.zero_le, true_and, Nat.zero_add, Nat.sub_self, Nat.zero_mul, Nat.add_zero,
    Nat.sub_zero]
  rw [if_pos (by omega)]
  congr 1
  omega

section Mount

variable (G : Geometry)

/-- The group count and descriptor span that `ext2_mount` computes for a geometry. -/
def groupCount : ℕ := mountGroupCount G.blocksCount G.blocksPerGroup

def blockSpan : ℕ := mountBlockSpan (groupCount G) G.blockSize

def mounted (disk heap : Region) : Ext2Fs where
  blockSize := G.blockSize
  inodeSize := G.inodeSize
  inodesPerGroup := G.inodesPerGroup
  blockGroupCount := groupCount G
  bgdBlockSpan := blockSpan G
  blockGroups := loadDescriptors disk G.blockSize heap (blockSpan G)

variable {G}

theorem mountBlockSize_eq : mountBlockSize G.logBlockSize = G.blockSize := by
  have hbounds := G.blockSize_bounds
  exact Nat.mod_eq_of_lt (Nat.lt_of_le_of_lt hbounds.2 (by decide))

theorem ext2Mount_eq (hdisk : G.Formatted disk) (heap : Region) :
    ext2Mount disk heap = some (mounted G disk heap) := by
  have hsize : G.inodeSize ≠ 0 := by
    obtain ⟨k, hk⟩ := G.inodeSize_pow
    rw [hk]
    exact Nat.mul_ne_zero (by decide) (Nat.two_pow_pos k).ne'
  have hmagic : field (ext2ReadBlock disk 1 heap 0) 56 2 = ext2SuperMagic := by
    rw [superblock_read (by decide), hdisk.magic]
  rw [ext2Mount, if_pos hmagic, mountFields, superblock_read (by decide),
    superblock_read (by decide), superblock_read (by decide), superblock_read (by decide),
    superblock_read (by decide), hdisk.blocksCount, hdisk.logBlockSize, hdisk.blocksPerGroup,
    hdisk.inodesPerGroup, hdisk.inodeSize, if_neg hsize, mountBlockSize_eq]
  rfl

theorem blockSpan_lt : blockSpan G < 256 := Nat.mod_lt _ (by decide)

theorem loadDescriptors_eq {bs n : ℕ} (hbs : 1024 ≤ bs)
    (hn : n < 256) (hfit : n * bs < 2 ^ 32) (o : ℕ) :
    loadDescriptors disk bs heap n o =
      if o / bs < n ∧ o % bs < 1024 then disk (2048 + 1024 * (o / bs) + o % bs) else heap o := by
  induction n with
  | zero => simp [loadDescriptors]
  | succ n ih =>
    rw [Nat.succ_mul] at hfit
    have hmod := Nat.mod_lt o (Nat.lt_of_lt_of_le (by decide : 0 < 1024) hbs)
    have hdecomp := Nat.div_add_mod o bs
    rw [loadDescriptors, ext2ReadBlock, if_neg (by omega), Nat.mod_eq_of_lt (a := n * bs) (by omega)]
    simp only [ih (by omega) (by omega)]
    -- Round `n` fills the first kilobyte of block `n`.
    have hround : n * bs ≤ o ∧ o < n * bs + 1024 ↔ o / bs = n ∧ o % bs < 1024 := by
      constructor
      · rintro ⟨hlo, hhi⟩
        have hq : o / bs = n := Nat.div_eq_of_lt_le hlo (by rw [Nat.succ_mul]; omega)
        rw [hq, Nat.mul_comm] at hdecomp
        omega
      · rintro ⟨hq, hr⟩
        rw [hq, Nat.mul_comm] at hdecomp
        omega
    by_cases hin : o / bs = n ∧ o % bs < 1024
    · rw [if_pos (hround.mpr hin), if_pos (by omega)]
      rw [hin.1, Nat.mul_comm] at hdecomp
      congr 1
      rw [hin.1, Nat.mod_eq_of_lt (by omega)]
      omega
    · rw [if_neg (mt hround.mp hin)]
      have hiff : (o / bs < n ∧ o % bs < 1024) ↔ (o / bs < n + 1 ∧ o % bs < 1024) := by omega
      simp only [hiff]

theorem field_blockGroups (g : ℕ) :
    field (mounted G disk heap).blockGroups (32 * g + 8) 4 =
      if 32 * g / G.blockSize < blockSpan G ∧ 32 * g % G.blockSize < 1024 then
        field disk (2048 + 1024 * (32 * g / G.blockSize) + 32 * g % G.blockSize + 8) 4
      else field heap (32 * g + 8) 4 := by
  have hbounds := G.blockSize_bounds
  have hspan := blockSpan_lt (G := G)
  have hfit : blockSpan G * G.blockSize < 2 ^ 32 :=
    Nat.lt_of_le_of_lt (Nat.mul_le_mul hspan.le hbounds.2) (by decide)
  have hm := G.blockSize_eq
  generalize 32 * 2 ^ G.logBlockSize = m at hm
  have hrem : 32 * g % G.blockSize = 32 * (g % m) := by rw [hm, Nat.mul_mod_mul_left]
  have hquot : 32 * g / G.blockSize = g / m := by rw [hm, Nat.mul_div_mul_left _ _ (by decide)]
  -- The four bytes lie in one descriptor, and descriptors do not cross blocks.
  have hslot : ∀ i < 4, (32 * g + 8 + i) / G.blockSize = 32 * g / G.blockSize ∧
      (32 * g + 8 + i) % G.blockSize = 32 * g % G.blockSize + 8 + i := by
    intro i hi
    have hdiv : (32 * g + 8 + i) / G.blockSize = 32 * g / G.blockSize := by
      rw [hquot, hm, ← Nat.div_div_eq_div_mul]
      congr 1
      omega
    have h₁ := Nat.div_add_mod (32 * g + 8 + i) G.blockSize
    have h₂ := Nat.div_add_mod (32 * g) G.blockSize
    rw [hdiv] at h₁
    exact ⟨hdiv, by omega⟩
  have hbyte : ∀ i < 4, (mounted G disk heap).blockGroups (32 * g + 8 + i) =
      if 32 * g / G.blockSize < blockSpan G ∧ 32 * g % G.blockSize < 1024 then
        disk (2048 + 1024 * (32 * g / G.blockSize) + 32 * g % G.blockSize + 8 + i)
      else heap (32 * g + 8 + i) := by
    intro i hi
    obtain ⟨hdiv, hmod⟩ := hslot i hi
    refine (loadDescriptors_eq hbounds.1 hspan hfit _).trans ?_
    rw [hdiv, hmod]
    have hiff : 32 * g % G.blockSize + 8 + i < 1024 ↔ 32 * g % G.blockSize < 1024 := by omega
    simp only [hiff]
    simp only [Nat.add_assoc]
  split_ifs with hloaded
  · refine field_congr fun i hi => ?_
    rw [hbyte i hi, if_pos hloaded]
  · refine field_congr fun i hi => ?_
    rw [hbyte i hi, if_neg hloaded]

end Mount

section Read

variable (G : Geometry) (disk heap : Region) (ino : ℕ)

def tableRead : ℕ := field (mounted G disk heap).blockGroups (32 * G.group ino % 2 ^ 32 + 8) 4

def blockRead : ℕ :=
  (tableRead G disk heap ino + G.indexInGroup ino * G.inodeSize % 2 ^ 32 / G.blockSize) % 2 ^ 32

def slotRead : ℕ := (ino - 1) % (G.blockSize / G.inodeSize) * G.inodeSize % 2 ^ 32

variable {G disk ino}

theorem ext2ReadInode_eq (h1 : 1 ≤ ino) (hino : ino ≤ G.inodesCount) (heap' : Region) :
    ext2ReadInode (mounted G disk heap) disk heap' ino =
      if groupCount G < G.group ino then none
      else some ((List.range G.inodeSize).map fun j =>
        ext2ReadBlock disk (blockRead G disk heap ino) heap' 0 (slotRead G ino + j)) := by
  have hlt := G.inodesCount_lt
  have hindex : (ino + (2 ^ 32 - 1)) % 2 ^ 32 = ino - 1 := by omega
  simp only [ext2ReadInode, hindex]
  rfl

/-- What the property asks of one read: the bytes of the inode, and no more than fit. -/
def ReadsInode (G : Geometry) (disk heap heap' : Region) (ino : ℕ) : Prop :=
  ∃ fs bytes, ext2Mount disk heap = some fs ∧ ext2ReadInode fs disk heap' ino = some bytes ∧
    bytes = (List.range G.inodeSize).map (fun j => disk (G.inodePosition ino + j)) ∧
    bytes.length ≤ sizeofInode

theorem readsInode_iff (hdisk : G.Formatted disk) (h1 : 1 ≤ ino) (hino : ino ≤ G.inodesCount)
    (heap' : Region) :
    ReadsInode G disk heap heap' ino ↔
      G.group ino ≤ groupCount G ∧ G.inodeSize ≤ sizeofInode ∧
        ∀ j < G.inodeSize, ext2ReadBlock disk (blockRead G disk heap ino) heap' 0
          (slotRead G ino + j) = disk (G.inodePosition ino + j) := by
  have hread : ext2ReadInode (mounted G disk heap) disk heap' ino = _ :=
    ext2ReadInode_eq heap h1 hino heap'
  constructor
  · rintro ⟨fs, bytes, hmount, hbytes, rfl, hlen⟩
    rw [ext2Mount_eq hdisk, Option.some.injEq] at hmount
    rw [← hmount, hread] at hbytes
    split_ifs at hbytes with hpanic
    refine ⟨Nat.not_lt.mp hpanic, by simpa using hlen, fun j hj => ?_⟩
    exact List.map_inj_left.mp (Option.some.inj hbytes) j (List.mem_range.mpr hj)
  · rintro ⟨hgroup, hsize, hbytes⟩
    refine ⟨_, _, ext2Mount_eq hdisk heap, ?_, rfl, by simpa using hsize⟩
    rw [hread, if_neg (Nat.not_lt.mpr hgroup)]
    exact congrArg some (List.map_congr_left fun j hj => hbytes j (List.mem_range.mp hj))

structure Addressable (G : Geometry) (ino : ℕ) : Prop where
  blockSize : G.logBlockSize = 0
  inodeSize : G.inodeSize = 128
  group_le : G.group ino ≤ groupCount G
  loaded : G.group ino / 32 < blockSpan G
  slot : (ino - 1) % 8 = G.indexInGroup ino % 8
  below : G.inodeTable (G.group ino) + G.indexInGroup ino / 8 < 2 ^ 22

theorem Addressable.readsInode (ha : Addressable G ino) (h1 : 1 ≤ ino) (hino : ino ≤ G.inodesCount)
    (hdisk : G.Formatted disk) (heap' : Region) : ReadsInode G disk heap heap' ino := by
  have hbs : G.blockSize = 1024 := by rw [Geometry.blockSize, blockSizeOf, ha.blockSize]; rfl
  have hg := G.group_lt h1 hino
  have hspan := blockSpan_lt (G := G)
  have hloaded := ha.loaded
  have hbelow := ha.below
  have htable : tableRead G disk heap ino = G.inodeTable (G.group ino) := by
    have hdesc := hdisk.inodeTable _ hg
    have hat : descriptorsAt G.logBlockSize = 2048 := by rw [ha.blockSize]; rfl
    rw [hat] at hdesc
    rw [tableRead, Nat.mod_eq_of_lt (by omega), field_blockGroups, hbs, if_pos (by omega), ← hdesc]
    congr 1
    omega
  have hblock : blockRead G disk heap ino =
      G.inodeTable (G.group ino) + G.indexInGroup ino / 8 := by
    rw [blockRead, htable, ha.inodeSize, hbs]
    omega
  have hslot : slotRead G ino = G.indexInGroup ino % 8 * 128 := by
    have h := ha.slot
    rw [slotRead, ha.inodeSize, hbs]
    omega
  have hpos : G.inodePosition ino =
      (G.inodeTable (G.group ino) + G.indexInGroup ino / 8) * 1024 +
        G.indexInGroup ino % 8 * 128 := by
    rw [Geometry.inodePosition, ha.inodeSize, hbs]
    omega
  have hne : G.inodeTable (G.group ino) + G.indexInGroup ino / 8 ≠ 0 := by
    have hpos := G.inodeTable_pos hg
    omega
  rw [readsInode_iff heap hdisk h1 hino]
  refine ⟨ha.group_le, by rw [ha.inodeSize]; decide, fun j hj => ?_⟩
  rw [ha.inodeSize] at hj
  rw [hblock, hslot, hpos, ext2ReadBlock, if_neg hne]
  simp only [Nat.zero_le, true_and, Nat.zero_add, Nat.sub_zero]
  rw [if_pos (by omega), Nat.mod_eq_of_lt (by omega)]
  congr 1
  omega

end Read

section Probe

variable {G : Geometry} {ino : ℕ}

def probeDisk (G : Geometry) (ino : ℕ) (c : UInt8) : Region :=
  Function.update (blankDisk G) (G.inodePosition ino) c

theorem probeDisk_before {c : UInt8} {p : ℕ} (hp : p < G.inodePosition ino) :
    probeDisk G ino c p = blankDisk G p :=
  Function.update_of_ne hp.ne _ _

theorem formatted_probe (h1 : 1 ≤ ino) (hino : ino ≤ G.inodesCount) (c : UInt8) :
    G.Formatted (probeDisk G ino c) :=
  (formatted_blank G).congr fun _ hp =>
    probeDisk_before (hp.trans_le (Geometry.inodePosition_ge h1 hino))

theorem descriptor_read_le (g : ℕ) :
    2048 + 1024 * (32 * g / G.blockSize) + 32 * g % G.blockSize ≤
      descriptorsAt G.logBlockSize + 32 * g := by
  have hdecomp := Nat.div_add_mod (32 * g) G.blockSize
  rcases Nat.eq_zero_or_pos G.logBlockSize with h0 | hpos
  · have hbs : G.blockSize = 1024 := by rw [Geometry.blockSize, blockSizeOf, h0]; rfl
    have hat : descriptorsAt G.logBlockSize = 2048 := by rw [h0]; rfl
    rw [hbs] at hdecomp ⊢
    omega
  · have hbs := G.blockSize_ge hpos
    have hat : descriptorsAt G.logBlockSize = G.blockSize := by
      rw [descriptorsAt, firstDataBlockOf, if_neg (Nat.pos_iff_ne_zero.mp hpos), Nat.zero_add,
        Nat.one_mul, Geometry.blockSize]
    have hmul := Nat.mul_le_mul_right (32 * g / G.blockSize) hbs
    omega

theorem field_zero {b : Region} (h : ∀ i < w, b (start + i) = 0) :
    field b start w = 0 := by
  have hbytes : (List.range w).map (fun i => b (start + i)) = List.replicate w 0 := by
    refine List.eq_replicate_iff.mpr ⟨by simp, fun x hx => ?_⟩
    obtain ⟨i, hi, rfl⟩ := List.mem_map.mp hx
    exact h i (List.mem_range.mp hi)
  rw [field, hbytes, ofLE_replicate_zero]

/-- The inode table a read finds on a fresh disk: none, or that of an earlier group, whatever
the inode holds. -/
theorem tableRead_probe (h1 : 1 ≤ ino) (hino : ino ≤ G.inodesCount) :
    ∃ T, (∀ c, tableRead G (probeDisk G ino c) (fun _ => 0) ino = T) ∧
      (T = 0 ∨ ∃ k ≤ G.group ino, T = G.inodeTable k ∧
        (G.logBlockSize = 0 → k / 32 < blockSpan G)) := by
  have hg := G.group_lt h1 hino
  have hpos := G.inodePosition_ge h1 hino
  have hwrap : 32 * G.group ino % 2 ^ 32 = 32 * (G.group ino % 2 ^ 27) := by omega
  have hk : G.group ino % 2 ^ 27 ≤ G.group ino := Nat.mod_le _ _
  simp only [tableRead, hwrap, field_blockGroups]
  generalize G.group ino % 2 ^ 27 = g at hk
  by_cases hloaded : 32 * g / G.blockSize < blockSpan G ∧ 32 * g % G.blockSize < 1024
  · simp only [if_pos hloaded]
    have hle := descriptor_read_le (G := G) g
    have hsame : ∀ c, field (probeDisk G ino c)
        (2048 + 1024 * (32 * g / G.blockSize) + 32 * g % G.blockSize + 8) 4 =
          field (descriptorRegion G)
            (2048 + 1024 * (32 * g / G.blockSize) + 32 * g % G.blockSize + 8) 4 := by
      intro c
      refine field_congr fun i hi => ?_
      rw [probeDisk_before (by omega), blankDisk_behind G (by omega)]
    refine ⟨_, hsame, ?_⟩
    obtain ⟨n, hn⟩ := G.descriptorsAt_eq
    have hrem : 32 * g % G.blockSize = 32 * (g % (32 * 2 ^ G.logBlockSize)) := by
      rw [G.blockSize_eq, Nat.mul_mod_mul_left]
    by_cases hbefore : 2048 + 1024 * (32 * g / G.blockSize) + 32 * g % G.blockSize <
        descriptorsAt G.logBlockSize
    · left
      refine field_zero fun i hi => ?_
      rw [descriptorRegion, if_neg (by omega)]
    · right
      obtain ⟨k, hk'⟩ : ∃ k, 2048 + 1024 * (32 * g / G.blockSize) + 32 * g % G.blockSize =
          descriptorsAt G.logBlockSize + 32 * k :=
        ⟨64 + 32 * (32 * g / G.blockSize) + g % (32 * 2 ^ G.logBlockSize) - n, by omega⟩
      refine ⟨k, by omega, ?_, fun h0 => ?_⟩
      · rw [hk']
        exact field_descriptorRegion G (by omega)
      · have hbs : G.blockSize = 1024 := by rw [Geometry.blockSize, blockSizeOf, h0]; rfl
        have hat : descriptorsAt G.logBlockSize = 2048 := by rw [h0]; rfl
        rw [hbs] at hk' hloaded
        omega
  · simp only [if_neg hloaded]
    exact ⟨_, fun _ => rfl, Or.inl (field_zero fun _ _ => rfl)⟩

theorem readBlock_probe {b o : ℕ}
    (h : ∀ c, ext2ReadBlock (probeDisk G ino c) b (fun _ => 0) 0 o = c) :
    b ≠ 0 ∧ o < 1024 ∧ (1024 + (b - 1) * 1024) % 2 ^ 32 + o = G.inodePosition ino := by
  have hb : b ≠ 0 := by
    intro h0
    have h1 := h 1
    rw [ext2ReadBlock, if_pos h0] at h1
    exact absurd h1 (by decide)
  have hread : ∀ c, (if 0 ≤ o ∧ o < 0 + 1024 then
      probeDisk G ino c ((1024 + (b - 1) * 1024) % 2 ^ 32 + (o - 0)) else 0) = c := by
    intro c
    have hc := h c
    rwa [ext2ReadBlock, if_neg hb] at hc
  have ho : o < 1024 := by
    by_contra hge
    have h1 := hread 1
    rw [if_neg (by omega)] at h1
    exact absurd h1 (by decide)
  refine ⟨hb, ho, ?_⟩
  by_contra hne
  have hc := hread (blankDisk G ((1024 + (b - 1) * 1024) % 2 ^ 32 + o) + 1)
  rw [if_pos ⟨Nat.zero_le _, by omega⟩, Nat.sub_zero, probeDisk, Function.update_of_ne hne] at hc
  simp at hc

/-- A read that finds the inode on every disk computes its position, and can do so only in the
layout it was written for. -/
theorem addressable_of_position (h1 : 1 ≤ ino) (hino : ino ≤ G.inodesCount)
    (hsize : G.inodeSize = 128) (hgroup : G.group ino ≤ groupCount G) {T : ℕ}
    (hT : T = 0 ∨ ∃ k ≤ G.group ino, T = G.inodeTable k ∧
        (G.logBlockSize = 0 → k / 32 < blockSpan G))
    (hslot : slotRead G ino < 1024)
    (hb : (T + G.indexInGroup ino * G.inodeSize % 2 ^ 32 / G.blockSize) % 2 ^ 32 ≠ 0)
    (hpos : (1024 + ((T + G.indexInGroup ino * G.inodeSize % 2 ^ 32 / G.blockSize) % 2 ^ 32 - 1) *
      1024) % 2 ^ 32 + slotRead G ino = G.inodePosition ino) : Addressable G ino := by
  have hg := G.group_lt h1 hino
  have htable := G.inodeTable_pos hg
  have hle : T ≤ G.inodeTable (G.group ino) := by
    rcases hT with rfl | ⟨k, hk, rfl, -⟩
    · exact Nat.zero_le _
    · rcases Nat.eq_or_lt_of_le hk with rfl | hlt
      · exact le_rfl
      · exact (G.inodeTable_lt_of_lt hg hlt).le
  rw [Geometry.inodePosition, hsize] at hpos
  rw [hsize] at hb
  rcases Nat.eq_zero_or_pos G.logBlockSize with h0 | hlog
  · have hbs : G.blockSize = 1024 := by rw [Geometry.blockSize, blockSizeOf, h0]; rfl
    have hplace : slotRead G ino = (ino - 1) % 8 * 128 := by
      rw [slotRead, hsize, hbs]
      omega
    rw [hbs] at hpos hb
    rw [hplace] at hpos
    -- The position is below 4 GiB, so nothing wraps and its parts are those of the format.
    have hbelow : G.inodeTable (G.group ino) + G.indexInGroup ino / 8 < 2 ^ 22 := by omega
    have hparts : T = G.inodeTable (G.group ino) ∧ (ino - 1) % 8 = G.indexInGroup ino % 8 := by
      omega
    have hloaded : G.group ino / 32 < blockSpan G := by
      rcases hT with hzero | ⟨k, hk, hTk, hspan⟩
      · omega
      · rcases Nat.eq_or_lt_of_le hk with rfl | hlt
        · exact hspan h0
        · have hearlier := G.inodeTable_lt_of_lt hg hlt
          omega
    exact ⟨h0, hsize, hgroup, hloaded, hparts.2, hbelow⟩
  · -- With larger blocks the read falls short of the table.
    exfalso
    have hbs : 2048 ≤ G.blockSize := G.blockSize_ge hlog
    have hindex := Nat.div_mul_le_self (G.indexInGroup ino * 128 % 2 ^ 32) G.blockSize
    generalize G.indexInGroup ino * 128 % 2 ^ 32 / G.blockSize = i at hpos hindex
    have hscale := Nat.mul_le_mul_left (G.inodeTable (G.group ino) + i) hbs
    rw [Nat.add_mul, Nat.add_mul] at hscale
    omega

end Probe

/-- Mount and read find every byte of an inode, on every disk with the geometry and whatever the
heap held, exactly if blocks are 1 KiB, inodes 128 bytes, the group's descriptor is among those
loaded, the inode has the same place in its block by its number as by its index in the group, and
its block lies below 4 GiB. -/
theorem reads_inode_iff (G : Geometry) (ino : ℕ) (h1 : 1 ≤ ino) (hino : ino ≤ G.inodesCount) :
    (∀ disk heap heap', G.Formatted disk → ReadsInode G disk heap heap' ino) ↔
      Addressable G ino := by
  constructor
  · intro hall
    have hprobe := fun c =>
      (readsInode_iff (fun _ => 0) (formatted_probe h1 hino c) h1 hino (fun _ => 0)).mp
        (hall _ _ _ (formatted_probe h1 hino c))
    obtain ⟨T, hT, hcases⟩ := tableRead_probe h1 hino
    have hsize : G.inodeSize = 128 := by
      obtain ⟨k, hk⟩ := G.inodeSize_pow
      have hle := (hprobe 0).2.1
      have hpow := Nat.one_le_two_pow (n := k)
      rw [sizeofInode] at hle
      omega
    have hfirst : ∀ c, ext2ReadBlock (probeDisk G ino c)
        ((T + G.indexInGroup ino * G.inodeSize % 2 ^ 32 / G.blockSize) % 2 ^ 32) (fun _ => 0) 0
          (slotRead G ino) = c := by
      intro c
      have hbyte := (hprobe c).2.2 0 (by rw [hsize]; decide)
      rw [blockRead, hT, Nat.add_zero, Nat.add_zero, probeDisk, Function.update_self] at hbyte
      exact hbyte
    obtain ⟨hb, hslot, hpos⟩ := readBlock_probe hfirst
    exact addressable_of_position h1 hino hsize (hprobe 0).1 hcases hslot hb hpos
  · intro ha disk heap heap' hdisk
    exact ha.readsInode heap h1 hino hdisk heap'

section OneGroup

variable {logBlockSize blocksCount : ℕ}

theorem groupsOf_eq_one (hblocks : 6 ≤ blocksCount ∧ blocksCount ≤ 8192) :
    groupsOf logBlockSize blocksCount 8192 = 1 := by
  rw [groupsOf, firstDataBlockOf]
  split_ifs <;> omega

theorem inodeSize_le_blockSize : 128 ≤ blockSizeOf logBlockSize := by
  have hpow := Nat.one_le_two_pow (n := logBlockSize)
  rw [blockSizeOf]
  omega

theorem inodes_fill_group (hblocks : 6 ≤ blocksCount ∧ blocksCount ≤ 8192) :
    184 ≤ groupsOf logBlockSize blocksCount 8192 * 184 := by
  rw [groupsOf_eq_one hblocks]

theorem table_in_disk (hblocks : 6 ≤ blocksCount ∧ blocksCount ≤ 8192) (g : ℕ)
    (_ : g < groupsOf logBlockSize blocksCount 8192) : 5 < blocksCount := by
  omega

theorem table_in_group (hblocks : 6 ≤ blocksCount ∧ blocksCount ≤ 8192) (g : ℕ)
    (hg : g < groupsOf logBlockSize blocksCount 8192) :
    firstDataBlockOf logBlockSize + g * 8192 ≤ 5 ∧
      5 < firstDataBlockOf logBlockSize + (g + 1) * 8192 := by
  rw [groupsOf_eq_one hblocks] at hg
  rw [firstDataBlockOf]
  split_ifs <;> omega

theorem table_behind_descriptors (hlog : logBlockSize ≤ 1)
    (hblocks : 6 ≤ blocksCount ∧ blocksCount ≤ 8192) (g : ℕ)
    (_ : g < groupsOf logBlockSize blocksCount 8192) :
    descriptorsAt logBlockSize + 32 * groupsOf logBlockSize blocksCount 8192 ≤
      5 * blockSizeOf logBlockSize := by
  rw [groupsOf_eq_one hblocks]
  interval_cases logBlockSize <;> decide

theorem logBlockSize_le_six (hlog : logBlockSize ≤ 1) : logBlockSize ≤ 6 := by
  omega

theorem blocksCount_lt_word (hblocks : 6 ≤ blocksCount ∧ blocksCount ≤ 8192) :
    blocksCount < 2 ^ 32 := by
  omega

end OneGroup

def oneGroup (logBlockSize blocksCount : ℕ) (hlog : logBlockSize ≤ 1)
    (hblocks : 6 ≤ blocksCount ∧ blocksCount ≤ 8192) : Geometry where
  logBlockSize := logBlockSize
  inodeSize := 128
  inodesPerGroup := 184
  blocksPerGroup := 8192
  blocksCount := blocksCount
  inodesCount := 184
  inodeTable := fun _ => 5
  logBlockSize_le := logBlockSize_le_six hlog
  inodeSize_pow := ⟨0, rfl⟩
  inodeSize_le := inodeSize_le_blockSize
  inodeSize_lt := by decide
  inodesPerGroup_pos := by decide
  inodesPerGroup_lt := by decide
  blocksPerGroup_pos := by decide
  blocksPerGroup_lt := by decide
  blocksCount_lt := blocksCount_lt_word hblocks
  inodesCount_lt := by decide
  inodesCount_le := inodes_fill_group hblocks
  inodeTable_lt := table_in_disk hblocks
  inodeTable_group := table_in_group hblocks
  inodeTable_behind := table_behind_descriptors hlog hblocks

def floppy : Geometry := oneGroup 0 1440 (by decide) (by decide)

theorem reads_inode_iff_floppy :
    floppy.Formatted (blankDisk floppy) ∧
      ∀ heap heap', ReadsInode floppy (blankDisk floppy) heap heap' 2 :=
  ⟨formatted_blank floppy, fun heap heap' =>
    (reads_inode_iff floppy 2 (by decide) (by decide)).mpr
      ⟨rfl, rfl, by decide, by decide, by decide, by decide⟩ _ heap heap' (formatted_blank floppy)⟩

def largeBlocks : Geometry := oneGroup 1 720 (by decide) (by decide)

/-- The inode table starts at block 5, 10 KiB into the disk, but the read goes to 5 KiB. -/
theorem large_blocks_misread :
    largeBlocks.Formatted (probeDisk largeBlocks 2 1) ∧
      ¬ ReadsInode largeBlocks (probeDisk largeBlocks 2 1) (fun _ => 0) (fun _ => 0) 2 := by
  have hdisk : largeBlocks.Formatted (probeDisk largeBlocks 2 1) :=
    formatted_probe (by decide) (by decide) 1
  refine ⟨hdisk, fun hread => ?_⟩
  have hbytes := ((readsInode_iff _ hdisk (by decide) (by decide) _).mp hread).2.2 0 (by decide)
  revert hbytes
  decide

end Bingos.Ext2
