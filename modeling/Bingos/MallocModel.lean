import Bingos.ByteMemory
import Bingos.MachineWords

set_option autoImplicit false

/-! The heap of the C library: `malloc`, `free` and `realloc` over the bytes of the
process, with the block headers among them. -/
namespace Bingos.Malloc
open ByteMemory MachineWords

/-- `sizeof(block_meta_t)`: size, free, magic and next. -/
def metaSize : ℕ := 16

def MAGIC : ℕ := 0x34127856

def blockSize (m : Memory) (b : ℕ) : ℕ := load32 m b

def blockFree (m : Memory) (b : ℕ) : ℕ := load32 m (b + 4)

def blockNext (m : Memory) (b : ℕ) : ℕ := load32 m (b + 12)

/-- The bytes, the break and `_base`; 0 is `NULL`. -/
structure Process where
  mem : Memory
  brk : ℕ
  base : ℕ

/-- The kernel refuses to lower the break, and the refusal is not noticed. -/
def sbrk (p : Process) (increment : ℕ) : ℕ × Process :=
  (p.brk, { p with
    brk := if add32 p.brk increment < p.brk then p.brk else add32 p.brk increment })

/-- The search with `*last`; `none` if the rounds do not suffice. -/
def findFreeBlock (m : Memory) (size : ℕ) : ℕ → ℕ → ℕ → Option (ℕ × ℕ)
  | 0, _, _ => none
  | fuel + 1, last, current =>
    if current ≠ 0 ∧ ¬(blockFree m current ≠ 0 ∧ size ≤ blockSize m current) then
      findFreeBlock m size fuel current (blockNext m current)
    else some (last, current)

def writeMeta (m : Memory) (block size : ℕ) : Memory :=
  store32 (store32 (store32 (store32 m block size) (block + 12) 0) (block + 4) 0) (block + 8) MAGIC

def requestSpace (p : Process) (last size : ℕ) : ℕ × Process :=
  let block := (sbrk p 0).1
  let r := sbrk (sbrk p 0).2 (add32 size metaSize)
  if r.1 = 2 ^ 32 - 1 then (0, r.2)
  else
    let m := if last ≠ 0 then store32 r.2.mem (last + 12) block else r.2.mem
    (block, { r.2 with mem := writeMeta m block size })

def mark (m : Memory) (b free magic : ℕ) : Memory := store32 (store32 m (b + 4) free) (b + 8) magic

def malloc (fuel : ℕ) (p : Process) (size : ℕ) : Option (ℕ × Process) :=
  if size = 0 then some (0, p)
  else if p.base = 0 then
    let r := requestSpace p 0 size
    if r.1 = 0 then some (0, r.2) else some (add32 r.1 metaSize, { r.2 with base := r.1 })
  else
    (findFreeBlock p.mem size fuel p.base p.base).map fun found =>
      if found.2 = 0 then
        let r := requestSpace p found.1 size
        if r.1 = 0 then (0, r.2) else (add32 r.1 metaSize, r.2)
      else (add32 found.2 metaSize, { p with mem := mark p.mem found.2 0 0x77777777 })

def getBlockPtr (ptr : ℕ) : ℕ := sub32 ptr metaSize

def free (p : Process) (ptr : ℕ) : Process :=
  if ptr = 0 then p else { p with mem := mark p.mem (getBlockPtr ptr) 1 0x55555555 }

def memcpy (m : Memory) (dst src : ℕ) : ℕ → Memory
  | 0 => m
  | count + 1 =>
    memcpy (Function.update m (dst % 2 ^ 32) (m (src % 2 ^ 32))) (dst + 1) (src + 1) count

def realloc (fuel : ℕ) (p : Process) (ptr size : ℕ) : Option (ℕ × Process) :=
  if ptr = 0 then malloc fuel p size
  else if size ≤ blockSize p.mem (getBlockPtr ptr) then some (ptr, p)
  else
    (malloc fuel p size).map fun r =>
      if r.1 = 0 then (0, r.2)
      else
        let m := memcpy r.2.mem r.1 ptr (blockSize r.2.mem (getBlockPtr ptr))
        (r.1, free { r.2 with mem := m } ptr)

/-- What the program does with its heap; it may write the bytes it asked for. -/
inductive Call where
  | malloc (size : ℕ)
  | free (ptr : ℕ)
  | realloc (ptr size : ℕ)
  | write (ptr i : ℕ) (b : UInt8)

/-- The process with a record of the live pointers and their requests, and of the
blocks handed out so far. -/
structure System where
  proc : Process
  live : List (ℕ × ℕ)
  created : List ℕ

/-- A new live pointer; `NULL` is none. -/
def System.handOut (s : System) (ptr size : ℕ) : System :=
  if ptr = 0 then s
  else { s with
    live := (ptr, size) :: s.live
    created := if ptr - metaSize ∈ s.created then s.created else s.created ++ [ptr - metaSize] }

def System.drop (s : System) (ptr : ℕ) : System :=
  { s with live := s.live.filter fun a => a.1 ≠ ptr }

def exec (fuel : ℕ) (s : System) : Call → Option (ℕ × System)
  | .malloc size =>
    (malloc fuel s.proc size).map fun r => (r.1, { s with proc := r.2 }.handOut r.1 size)
  | .free ptr => some (0, { s with proc := free s.proc ptr }.drop ptr)
  | .realloc ptr size =>
    (realloc fuel s.proc ptr size).map fun r =>
      -- A failed call leaves the old pointer live.
      if r.1 = 0 then (0, { s with proc := r.2 })
      else (r.1, ({ s with proc := r.2 }.drop ptr).handOut r.1 size)
  | .write ptr i b =>
    some (0, { s with proc := { s.proc with mem := Function.update s.proc.mem (ptr + i) b } })

def start (m : Memory) (first : ℕ) : System := ⟨⟨m, first, 0⟩, [], []⟩

end Bingos.Malloc
