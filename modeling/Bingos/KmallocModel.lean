import Bingos.MachineWords

set_option autoImplicit false

/-! The kernel heap of `kmalloc.c` over a memory of 32-bit words. Every access
of the allocator and of its queue is to an aligned word, so a word is named by
the address of its first byte. Sums of a page address and an offset into the
page do not wrap; the heap pointer does, and so do the counters. -/
namespace Bingos.Kmalloc
open MachineWords

abbrev Mem := ℕ → ℕ

def mfUsed : ℕ := 0xffaa0055
def mfFree : ℕ := 0x0055ffaa
def blockMagic : ℕ := 0x33445566
def pageSize : ℕ := 0x1000

/-- `sizeof(block_header_t)`: flags, magic, and the union of length and link. -/
def headerSize : ℕ := 12

/-- `sizeof(page_descriptor_t)`: next, firstfree, order, nfree. -/
def descriptorSize : ℕ := 16

/-- `sizeof(huge_block_header_t)`. -/
def hugeHeaderSize : ℕ := 48

def blockSizes : List ℕ := [32, 64, 128, 252, 508, 1020, 2040, 4080]
def blockCounts : List ℕ := [127, 63, 31, 16, 8, 4, 2, 1]

def blockSize (order : ℕ) : ℕ := blockSizes.getD order 0
def nblocks (order : ℕ) : ℕ := blockCounts.getD order 0

structure SizeDescriptor where
  firstfree : ℕ
  nmallocs : BitVec 32
  nfrees : BitVec 32
  nbytesmalloced : BitVec 32
  npages : BitVec 32

/-- `pages` is a record of the pages formatted so far; no code reads it. -/
structure Heap where
  mem : Mem
  sizes : ℕ → SizeDescriptor
  kmallocStart : ℕ
  kmallocEnd : ℕ
  hugeQueue : ℕ
  pages : List ℕ

/-- A kmalloc call returns a block, or fails in one of its ways: the first free
block is not flagged free, `__get_free_page` returns zero, the tries are used
up, no size class fits, the heap is not started, or it writes through NULL. -/
inductive Outcome where
  | block (p : ℕ)
  | notFree
  | noPage
  | exhausted
  | noOrder
  | early
  | fault
  deriving DecidableEq

def store (m : Mem) (a w : ℕ) : Mem := Function.update m a w

/-- The search of `get_order`, which has no result past the last size class. -/
def getOrder (size : ℕ) : Option ℕ := blockSizes.findIdx? (fun b => size + headerSize ≤ b)

def roundEnd (e : ℕ) : ℕ :=
  if e / pageSize ≠ 0 then add32 (e / pageSize * pageSize) pageSize else e

def getFreePage (h : Heap) : ℕ × Heap :=
  (roundEnd h.kmallocEnd, { h with kmallocEnd := add32 (roundEnd h.kmallocEnd) pageSize })

def getFreePages (h : Heap) (pages : ℕ) : ℕ × Heap :=
  (roundEnd h.kmallocEnd,
    { h with kmallocEnd := add32 (roundEnd h.kmallocEnd) (pages * pageSize) })

def formatBlock (m : Mem) (p link : ℕ) : Mem :=
  store (store (store m p mfFree) (p + 4) blockMagic) (p + 8) link

/-- The loop over all blocks but the last; it follows the links it writes. -/
def linkBlocks (m : Mem) (p sz : ℕ) : ℕ → Mem × ℕ
  | 0 => (m, p)
  | n + 1 =>
    let m := formatBlock m p (p + sz)
    linkBlocks m (m (p + 8)) sz n

def formatPage (h : Heap) (order page : ℕ) : Heap :=
  let d := h.sizes order
  let link := linkBlocks h.mem (page + descriptorSize) (blockSize order) (nblocks order - 1)
  let m := formatBlock link.1 link.2 0
  let m := store m (page + 8) order
  let m := store m (page + 12) (nblocks order)
  let m := store m (page + 4) (page + descriptorSize)
  let m := store m page d.firstfree
  { h with
    mem := m
    sizes := Function.update h.sizes order { d with firstfree := page, npages := d.npages + 1 }
    pages := page :: h.pages }

def takeBlock (h : Heap) (order page p size : ℕ) : Heap :=
  let d := h.sizes order
  let nfree := sub32 (h.mem (page + 12)) 1
  let m := store (store h.mem (page + 4) (h.mem (p + 8))) (page + 12) nfree
  { h with
    mem := store (store (if nfree = 0 then store m page 0 else m) p mfUsed) (p + 8) size
    sizes := Function.update h.sizes order { d with
      firstfree := if nfree = 0 then m page else d.firstfree
      nmallocs := d.nmallocs + 1
      nbytesmalloced := d.nbytesmalloced + BitVec.ofNat 32 size } }

def kmallocTries (h : Heap) (order size : ℕ) : ℕ → Outcome × Heap
  | 0 => (.exhausted, h)
  | tries + 1 =>
    let page := (h.sizes order).firstfree
    if page ≠ 0 ∧ h.mem (page + 4) ≠ 0 then
      let p := h.mem (page + 4)
      if h.mem p = mfFree then (.block (p + headerSize), takeBlock h order page p size)
      else (.notFree, h)
    else
      match getFreePage h with
      | (page, h) =>
        if page = 0 then (.noPage, h) else kmallocTries (formatPage h order page) order size tries

def kmallocBlock (h : Heap) (size : ℕ) : Outcome × Heap :=
  match getOrder size with
  | some order => kmallocTries h order size 3
  | none => (.noOrder, h)

/-- The queue of `list.c` at `l`: head, tail and length; its nodes hold prev,
next and value. -/
def pushNode (m : Mem) (l n value : ℕ) : Mem :=
  let m := store (store (store m (n + 8) value) (n + 4) 0) n 0
  let m :=
    if m l = 0 then store m (l + 4) n
    else
      let m := store m (m l) n
      store m (n + 4) (m l)
  let m := store m l n
  store m (l + 8) (add32 (m (l + 8)) 1)

def listPushFront (h : Heap) (l value : ℕ) : Option Heap :=
  match kmallocBlock h 12 with
  | (.block n, h) => some { h with mem := pushNode h.mem l n value }
  | _ => none

def listDelete (m : Mem) (l n : ℕ) : Mem :=
  let m := if n = m l then store m l (m (n + 4)) else m
  let m := if n = m (l + 4) then store m (l + 4) (m n) else m
  let m := if m n ≠ 0 then store m (m n + 4) (m (n + 4)) else m
  let m := if m (n + 4) ≠ 0 then store m (m (n + 4)) (m n) else m
  store m (l + 8) (sub32 (m (l + 8)) 1)

/-- Giving back the block with the given header. A page already linked is left
where it is. -/
def giveBlock (h : Heap) (header page order : ℕ) : Heap :=
  let d := h.sizes order
  let size := h.mem (header + 8)
  let m := store h.mem header mfFree
  let m := store m (header + 8) (m (page + 4))
  let nfree := add32 (m (page + 12)) 1
  let m := store (store m (page + 4) header) (page + 12) nfree
  { h with
    mem := if nfree = 1 ∧ m page = 0 then store m page d.firstfree else m
    sizes := Function.update h.sizes order { d with
      firstfree := if nfree = 1 ∧ m page = 0 then page else d.firstfree
      nfrees := d.nfrees + 1
      nbytesmalloced := d.nbytesmalloced - BitVec.ofNat 32 size } }

def freeBlock (h : Heap) (header : ℕ) : Heap :=
  let page := header / pageSize * pageSize
  let order := h.mem (page + 8)
  if 2 ^ 31 ≤ order then h else giveBlock h header page order

/-- A block whose header does not carry the magic number is taken for a huge
one; `none` is a failed assertion or a write through NULL. -/
def kfree (h : Heap) (p : ℕ) : Option Heap :=
  if p = 0 then some h
  else if h.mem (p - headerSize + 4) = blockMagic then some (freeBlock h (p - headerSize))
  else if h.mem (p - pageSize + 12) = blockMagic then
    listPushFront h h.hugeQueue (p - pageSize)
  else none

/-- The scan of the queue from node `n`; a fitting node is unlinked and freed,
and its link is read afterwards. The last header seen is the result. -/
def scanQueue (h : Heap) (size n header : ℕ) : ℕ → Option (ℕ × Heap)
  | 0 => none
  | fuel + 1 =>
    if n = 0 then some (header, h)
    else
      let header := h.mem (n + 8)
      if size ≤ h.mem (header + 8) then
        match kfree { h with mem := listDelete h.mem h.hugeQueue n } n with
        | some h => scanQueue h size (h.mem (n + 4)) header fuel
        | none => none
      else scanQueue h size (h.mem (n + 4)) header fuel

def kmallocHuge (h : Heap) (size fuel : ℕ) : Outcome × Heap :=
  match scanQueue h size (h.mem h.hugeQueue) 0 fuel with
  | none => (.fault, h)
  | some (header, h) =>
    if header ≠ 0 then (.block (add32 header pageSize), h)
    else
      let pages := add32 size hugeHeaderSize / pageSize + 2
      match getFreePages h pages with
      | (header, h) =>
        let m := store h.mem (header + 12) blockMagic
        let m := store m (header + 8) (sub32 pages 1 * pageSize % 2 ^ 32)
        (.block (add32 header pageSize), { h with mem := m })

def queueFuel : ℕ := 2 ^ 32

def kmalloc (h : Heap) (size : ℕ) : Outcome × Heap :=
  if h.kmallocStart = 0 then (.early, h)
  else if size > 4080 then kmallocHuge h size queueFuel
  else kmallocBlock h size

def coldSizes : ℕ → SizeDescriptor := fun _ => ⟨0, 0, 0, 0, 0⟩

def kmallocInit (m : Mem) (start : ℕ) : Option Heap :=
  match kmalloc ⟨m, coldSizes, start, start, 0, []⟩ 12 with
  | (.block l, h) =>
    some { h with mem := store (store (store h.mem l 0) (l + 4) 0) (l + 8) 0, hugeQueue := l }
  | _ => none

end Bingos.Kmalloc
