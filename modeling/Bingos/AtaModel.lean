import Bingos.ByteMemory
import Bingos.MachineWords

set_option autoImplicit false

/-! `read_ata` and `write_ata` of `modules/ata.c`, over sector operations that
transfer the 512 bytes they address. Positions in the caller's buffer are
relative to its start. -/
namespace Bingos.Ata
open MachineWords ByteMemory

def ataSectorSize : ℕ := 512

def ataMaxOffset (sectors48 sectors28 : ℕ) : ℕ :=
  (if sectors48 = 0 then sectors28 else sectors48) * ataSectorSize % 2 ^ 64

def memcpy (m : ℕ → UInt8) (dst : ℕ) (src : ℕ → UInt8) (n : ℕ) : ℕ → UInt8 := fun q =>
  if dst ≤ q ∧ q < dst + n then src (q - dst) else m q

def sector (disk : ℕ → UInt8) (lba : ℕ) : ℕ → UInt8 := fun i => disk (lba * ataSectorSize + i)

/-- The memory from the start of the caller's buffer on, and the ranges of it
that were written. -/
structure Buffer where
  bytes : ℕ → UInt8
  written : List (ℕ × ℕ)

def Buffer.write (b : Buffer) (dst : ℕ) (src : ℕ → UInt8) (n : ℕ) : Buffer :=
  ⟨memcpy b.bytes dst src n, b.written ++ [(dst, n)]⟩

/-- The loop over whole sectors; `none` is a loop still running. -/
def readLoop (disk : ℕ → UInt8) : ℕ → ℕ → ℕ → ℕ → Buffer → Option Buffer
  | 0, _, _, _, _ => none
  | fuel + 1, startBlock, endBlock, xOffset, b =>
    if startBlock ≤ endBlock then
      readLoop disk fuel (add32 startBlock 1) endBlock (add32 xOffset ataSectorSize)
        (b.write xOffset (sector disk startBlock) ataSectorSize)
    else some b

def readTail (disk : ℕ → UInt8) (offset size startBlock endBlock : ℕ) (b : Buffer) : ℕ × Buffer :=
  if add32 offset size % ataSectorSize ≠ 0 ∧ startBlock ≤ endBlock then
    let postfixSize := add32 offset size % ataSectorSize
    (sub32 endBlock 1, b.write (sub32 size postfixSize) (sector disk endBlock) postfixSize)
  else (endBlock, b)

def readRest (disk : ℕ → UInt8) (fuel offset size startBlock endBlock xOffset : ℕ) (b : Buffer) :
    Option Buffer :=
  let r := readTail disk offset size startBlock endBlock b
  readLoop disk fuel startBlock r.1 xOffset r.2

def readAta (disk : ℕ → UInt8) (fuel offset size : ℕ) (b : Buffer) : Option (ℕ × Buffer) :=
  let startBlock := offset / ataSectorSize
  let endBlock := sub32 (add32 offset size) 1 / ataSectorSize
  if offset % ataSectorSize ≠ 0 then
    let prefixSize := ataSectorSize - offset % ataSectorSize
    let b := b.write 0 (fun i => sector disk startBlock (offset % ataSectorSize + i)) prefixSize
    (readRest disk fuel offset size (add32 startBlock 1) endBlock prefixSize b).map (size, ·)
  else (readRest disk fuel offset size startBlock endBlock 0 b).map (size, ·)

/-- The disk, the sectors addressed so far and the ranges of the caller's
buffer that were read. -/
structure Device where
  disk : ℕ → UInt8
  addressed : List ℕ
  fetched : List (ℕ × ℕ)

def Device.fetch (d : Device) (src n : ℕ) : Device := { d with fetched := d.fetched ++ [(src, n)] }

def ataDeviceReadSector (d : Device) (lba : ℕ) : (ℕ → UInt8) × Device :=
  (sector d.disk lba, { d with addressed := d.addressed ++ [lba] })

def ataDeviceWriteSector (d : Device) (lba : ℕ) (buf : ℕ → UInt8) : Device :=
  { d with
    disk := memcpy d.disk (lba * ataSectorSize) buf ataSectorSize
    addressed := d.addressed ++ [lba] }

def compareLoop (p q : ℕ → UInt8) : ℕ → ℕ → ℕ
  | 0, _ => 0
  | words + 1, i =>
    if ofLE ((List.range 4).map fun k => p (i + k)) ≠ ofLE ((List.range 4).map fun k => q (i + k))
    then 1
    else compareLoop p q words (i + 4)

def bufferCompare (p q : ℕ → UInt8) (size : ℕ) : ℕ := compareLoop p q ((size + 3) / 4) 0

def ataDeviceWriteSectorRetry (d : Device) (lba : ℕ) (buf : ℕ → UInt8) : ℕ → Option Device
  | 0 => none
  | fuel + 1 =>
    let r := ataDeviceReadSector (ataDeviceWriteSector d lba buf) lba
    if bufferCompare buf r.1 ataSectorSize ≠ 0 then ataDeviceWriteSectorRetry r.2 lba buf fuel
    else some r.2

def writeHead (fuel offset startBlock : ℕ) (buffer : ℕ → UInt8) (d : Device) : Option Device :=
  let prefixSize := ataSectorSize - offset % ataSectorSize
  let r := ataDeviceReadSector d startBlock
  ataDeviceWriteSectorRetry (r.2.fetch 0 prefixSize) startBlock
    (memcpy r.1 (offset % ataSectorSize) buffer prefixSize) fuel

def writeTail (fuel offset size startBlock endBlock : ℕ) (buffer : ℕ → UInt8) (d : Device) :
    Option (ℕ × Device) :=
  if add32 offset size % ataSectorSize ≠ 0 ∧ startBlock ≤ endBlock then
    let postfixSize := add32 offset size % ataSectorSize
    let r := ataDeviceReadSector d endBlock
    (ataDeviceWriteSectorRetry (r.2.fetch (sub32 size postfixSize) postfixSize) endBlock
      (memcpy r.1 0 (fun i => buffer (sub32 size postfixSize + i)) postfixSize) fuel).map
        (sub32 endBlock 1, ·)
  else some (endBlock, d)

def writeLoop (buffer : ℕ → UInt8) : ℕ → ℕ → ℕ → ℕ → Device → Option Device
  | 0, _, _, _, _ => none
  | fuel + 1, startBlock, endBlock, xOffset, d =>
    if startBlock ≤ endBlock then
      (ataDeviceWriteSectorRetry (d.fetch xOffset ataSectorSize) startBlock
        (fun i => buffer (xOffset + i)) (fuel + 1)).bind
          (writeLoop buffer fuel (add32 startBlock 1) endBlock (add32 xOffset ataSectorSize))
    else some d

def writeRest (fuel offset size startBlock endBlock xOffset : ℕ) (buffer : ℕ → UInt8) (d : Device) :
    Option Device :=
  (writeTail fuel offset size startBlock endBlock buffer d).bind fun r =>
    writeLoop buffer fuel startBlock r.1 xOffset r.2

def writeAta (maxOffset : ℕ) (buffer : ℕ → UInt8) (fuel offset size : ℕ) (d : Device) :
    Option (ℕ × Device) :=
  let startBlock := offset / ataSectorSize
  let endBlock := sub32 (add32 offset size) 1 / ataSectorSize
  if maxOffset < offset then some (0, d)
  else
    let size := if maxOffset < add32 offset size then (maxOffset - offset) % 2 ^ 32 else size
    if offset % ataSectorSize ≠ 0 then
      ((writeHead fuel offset startBlock buffer d).bind
        (writeRest fuel offset size (add32 startBlock 1) endBlock
          (ataSectorSize - offset % ataSectorSize) buffer)).map (size, ·)
    else (writeRest fuel offset size startBlock endBlock 0 buffer d).map (size, ·)

end Bingos.Ata
