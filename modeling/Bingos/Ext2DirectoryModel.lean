import Bingos.Ext2Format
import Bingos.MachineWords
import Bingos.VfsModel

set_option autoImplicit false

/-! Directories in `fs/ext2.c`: enumeration by index and lookup by name. Both walk
the records of a directory block by block. -/
namespace Bingos.Ext2
open CStrings ByteMemory MachineWords
open Vfs (Dirent vfsFile vfsDirectory)

def ext2DirectBlocks : ℕ := 12

def ext2SIfdir : ℕ := 0x4000

def ext2SIfreg : ℕ := 0x8000

section Inode
variable (inode : Region)

def iMode : ℕ := field inode 0 2

def iSize : ℕ := field inode 4 4

def iBlock (k : ℕ) : ℕ := field inode (40 + 4 * k) 4

def ext2GetBlockNumber (block : ℕ) : ℕ :=
  if block < ext2DirectBlocks then iBlock inode block else 2 ^ 32 - 1

def ext2InodeReadBlock (disk : Region) (block : ℕ) (buf : Region) : Region :=
  ext2ReadBlock disk (ext2GetBlockNumber inode block) buf 0

end Inode

def bytesAt (b : Region) (start n : ℕ) : Bytes := (List.range n).map fun i => b (start + i)

section Entry
variable (buf : Region) (o : ℕ)

def entryInode : ℕ := field buf o 4

def entryRecLen : ℕ := field buf (o + 4) 2

def entryNameLen : ℕ := field buf (o + 6) 1

end Entry

/-- The loop of `ext2_direntry`. The result is the copied record or NULL; `none`
is a loop still running. -/
def direntryLoop (fs : Ext2Fs) (disk inode : Region) (index : ℕ) :
    ℕ → Region → ℕ → ℕ → ℕ → ℕ → Option (Option Bytes)
  | 0, _, _, _, _, _ => none
  | fuel + 1, buf, blockIndex, dirOffset, totalOffset, dirIndex =>
    if totalOffset < iSize inode ∧ dirIndex ≤ index then
      let recLen := entryRecLen buf dirOffset
      if entryInode buf dirOffset ≠ 0 ∧ dirIndex = index then
        some (some (bytesAt buf dirOffset recLen))
      else
        let dirIndex := if entryInode buf dirOffset ≠ 0 then add32 dirIndex 1 else dirIndex
        let dirOffset := add32 dirOffset recLen
        let totalOffset := add32 totalOffset recLen
        if fs.blockSize ≤ dirOffset then
          direntryLoop fs disk inode index fuel (ext2InodeReadBlock inode disk (blockIndex + 1) buf)
            (blockIndex + 1) (sub32 dirOffset fs.blockSize) totalOffset dirIndex
        else direntryLoop fs disk inode index fuel buf blockIndex dirOffset totalOffset dirIndex
    else some none

/-- `heap` is what the block buffer holds at first. The inode number is not used. -/
def ext2Direntry (fs : Ext2Fs) (disk heap inode : Region) (fuel _ino index : ℕ) :
    Option (Option Bytes) :=
  direntryLoop fs disk inode index fuel (ext2InodeReadBlock inode disk 0 heap) 0 0 0 0

def regionOf (bytes : Bytes) : Region := fun i => bytes.getD i 0

/-- What `ext2_readdir` puts into `tmpdir`; the name is copied from the record
and gets a terminator. -/
def direntOf (record : Bytes) : Dirent where
  dIno := entryInode (regionOf record) 0
  dName := bytesAt (regionOf record) 8 (entryNameLen (regionOf record) 0) ++ [0]

/-- `heap i` is what the `i`-th block of memory allocated holds at first. A panic
in `ext2_read_inode` has no result. -/
def ext2Readdir (fs : Ext2Fs) (disk : Region) (heap : ℕ → Region) (fuel ino index : ℕ) :
    Option (Option Dirent) :=
  (ext2ReadInode fs disk (heap 0) ino).bind fun inode =>
    (ext2Direntry fs disk (heap 1) (regionOf inode) fuel ino index).map (·.map direntOf)

def memcmp (p q : Region) : ℕ → ℕ → ℤ
  | 0, _ => 0
  | count + 1, i =>
    if (p i).toNat < (q i).toNat then -1
    else if (q i).toNat < (p i).toNat then 1
    else memcmp p q count (i + 1)

def nodeFlags (flags mode : ℕ) : ℕ :=
  let flags := if mode &&& ext2SIfdir ≠ 0 then flags ||| vfsDirectory else flags
  if mode &&& ext2SIfreg ≠ 0 then flags ||| vfsFile else flags

/-- The inode number, the flags and the name of a new `vfs_node_t`, in this order. -/
def foundNode (node : Region) (ino mode : ℕ) (name : Bytes) : Region :=
  let node := place 0 (toLE 4 ino) node
  place 4 name (place 148 (toLE 4 (nodeFlags (field node 148 4) mode)) node)

/-- The loop of `ext2_finddir`. `lowStrlen a` is the length of the string at the
address `a` of low memory: it is that, and not the length of the name, that the
copy of the name is given. -/
def finddirLoop (fs : Ext2Fs) (disk : Region) (heap : ℕ → Region) (lowStrlen : ℕ → ℕ)
    (inode name : Region) : ℕ → Region → ℕ → ℕ → ℕ → Option (Option Region)
  | 0, _, _, _, _ => none
  | fuel + 1, buf, blockIndex, o, totalOffset =>
    if totalOffset < iSize inode then
      let dirOffset := add32 o (entryRecLen buf o)
      let totalOffset := add32 totalOffset (entryRecLen buf o)
      if entryInode buf o ≠ 0 ∧ memcmp (fun i => buf (o + 8 + i)) name (entryNameLen buf o) 0 = 0 then
        (ext2ReadInode fs disk (heap 3) (entryInode buf o)).map fun i =>
          some (foundNode (heap 2) (entryInode buf o) (iMode (regionOf i))
            (bytesAt buf (o + 8) (lowStrlen (entryNameLen buf o + 1))))
      else if fs.blockSize ≤ dirOffset then
        finddirLoop fs disk heap lowStrlen inode name fuel
          (ext2InodeReadBlock inode disk (blockIndex + 1) buf) (blockIndex + 1)
          (sub32 dirOffset fs.blockSize) totalOffset
      else
        finddirLoop fs disk heap lowStrlen inode name fuel buf blockIndex dirOffset totalOffset
    else some none

def ext2Finddir (fs : Ext2Fs) (disk : Region) (heap : ℕ → Region) (lowStrlen : ℕ → ℕ)
    (fuel ino : ℕ) (name : Region) : Option (Option Region) :=
  (ext2ReadInode fs disk (heap 0) ino).bind fun inode =>
    finddirLoop fs disk heap lowStrlen (regionOf inode) name fuel
      (ext2InodeReadBlock (regionOf inode) disk 0 (heap 1)) 0 0 0

end Bingos.Ext2
