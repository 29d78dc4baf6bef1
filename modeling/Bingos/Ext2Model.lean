import Bingos.ByteMemory

set_option autoImplicit false

/-! Mounting and inode reads of `fs/ext2.c`, over a block device that delivers the bytes it is
asked for. -/
namespace Bingos.Ext2

open CStrings ByteMemory

abbrev Region := ℕ → UInt8

def field (b : Region) (start w : ℕ) : ℕ := ofLE ((List.range w).map fun i => b (start + i))

def ext2SuperMagic : ℕ := 0xEF53

def sizeofGroupDesc : ℕ := 32

/-- `sizeof(ext2_inode_t)`. -/
def sizeofInode : ℕ := 128

/-- `ext2_read_block` into a buffer from its byte `start` on: `BLOCK_SIZE` bytes, whatever the
block size of the file system. -/
def ext2ReadBlock (disk : Region) (blockNo : ℕ) (buf : Region) (start : ℕ) : Region :=
  if blockNo = 0 then buf
  else fun o =>
    if start ≤ o ∧ o < start + 1024 then
      disk ((1024 + (blockNo - 1) * 1024) % 2 ^ 32 + (o - start))
    else buf o

structure Ext2Fs where
  blockSize : ℕ
  inodeSize : ℕ
  inodesPerGroup : ℕ
  blockGroupCount : ℕ
  bgdBlockSpan : ℕ
  blockGroups : Region

def mountBlockSize (logBlockSize : ℕ) : ℕ := 1024 * 2 ^ logBlockSize % 2 ^ 32

def mountGroupCount (blocksCount blocksPerGroup : ℕ) : ℕ :=
  (blocksCount + blocksPerGroup + (2 ^ 32 - 1)) % 2 ^ 32 / blocksPerGroup

def mountBlockSpan (groupCount blockSize : ℕ) : ℕ :=
  (sizeofGroupDesc * groupCount % 2 ^ 32 / blockSize + 1) % 256

def loadDescriptors (disk : Region) (blockSize : ℕ) (buf : Region) : ℕ → Region
  | 0 => buf
  | i + 1 =>
    ext2ReadBlock disk (2 + i) (loadDescriptors disk blockSize buf i) (i * blockSize % 2 ^ 32)

/-- The fields `ext2_mount` computes from the superblock; `heap` is what `kmalloc` returns. -/
def mountFields (superBlock disk heap : Region) : Ext2Fs where
  blockSize := mountBlockSize (field superBlock 24 4)
  inodeSize := if field superBlock 88 2 = 0 then 128 else field superBlock 88 2
  inodesPerGroup := field superBlock 40 4
  blockGroupCount := mountGroupCount (field superBlock 4 4) (field superBlock 32 4)
  bgdBlockSpan :=
    mountBlockSpan (mountGroupCount (field superBlock 4 4) (field superBlock 32 4))
      (mountBlockSize (field superBlock 24 4))
  blockGroups :=
    loadDescriptors disk (mountBlockSize (field superBlock 24 4)) heap
      (mountBlockSpan (mountGroupCount (field superBlock 4 4) (field superBlock 32 4))
        (mountBlockSize (field superBlock 24 4)))

def ext2Mount (disk heap : Region) : Option Ext2Fs :=
  if field (ext2ReadBlock disk 1 heap 0) 56 2 = ext2SuperMagic then
    some (mountFields (ext2ReadBlock disk 1 heap 0) disk heap)
  else none

/-- The bytes `ext2_read_inode` copies into the `ext2_inode_t` it allocated; a panic has no
result. -/
def ext2ReadInode (fs : Ext2Fs) (disk heap : Region) (ino : ℕ) : Option Bytes :=
  let index := (ino + (2 ^ 32 - 1)) % 2 ^ 32
  let group := index / fs.inodesPerGroup
  if fs.blockGroupCount < group then
    none
  else
    let inodeTableBlock := field fs.blockGroups (sizeofGroupDesc * group % 2 ^ 32 + 8) 4
    let ioffset := index % fs.inodesPerGroup
    let blockIndex := ioffset * fs.inodeSize % 2 ^ 32 / fs.blockSize
    let blockOffset := index % (fs.blockSize / fs.inodeSize)
    let buf := ext2ReadBlock disk ((inodeTableBlock + blockIndex) % 2 ^ 32) heap 0
    some ((List.range fs.inodeSize).map fun j => buf (blockOffset * fs.inodeSize % 2 ^ 32 + j))

end Bingos.Ext2
