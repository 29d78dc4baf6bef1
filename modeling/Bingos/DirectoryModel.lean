import Bingos.MmapModel
import Bingos.ByteMemory

set_option autoImplicit false

/-! Page directories: cloning one for a new process, frame by frame, and
releasing it again. -/
namespace Bingos.Mmap
open MachineWords Frames ByteMemory

/-- The page tables and the frame bitmap together with the contents of the frames. -/
structure Machine where
  space : Space
  phys : Memory

structure Entry where
  present : Bool
  rw : Bool
  user : Bool
  addr : ℕ
  deriving DecidableEq

def Entry.zero : Entry := ⟨false, false, false, 0⟩

structure PageDir where
  tabls : ℕ → Option ℕ
  entries : ℕ → Entry
  physical : ℕ

def copyLoop (phys : Memory) (ebx ecx : ℕ) : ℕ → Memory
  | 0 => phys
  | edx + 1 => copyLoop (store32 phys ecx (load32 phys ebx)) (add32 ebx 4) (add32 ecx 4) edx

def copyPagePhysical (phys : Memory) (src dst : ℕ) : Memory := copyLoop phys src dst 1024

def cloneFlags (p q : Page) : Page :=
  { q with
    present := q.present || p.present
    rw := q.rw || p.rw
    user := q.user || p.user
    accessed := q.accessed || p.accessed
    dirty := q.dirty || p.dirty }

def clonePage (src tabl : ℕ) (M : Machine) (i : ℕ) : Option Machine :=
  let p := readPage M.space ⟨src, i⟩
  if p.addr = 0 then some M
  else (pageMap M.space ⟨tabl, i⟩ false false).map fun s =>
    let q := cloneFlags p (readPage s ⟨tabl, i⟩)
    ⟨writePage s ⟨tabl, i⟩ q,
      copyPagePhysical M.phys (p.addr * 0x1000 % 2 ^ 32) (q.addr * 0x1000 % 2 ^ 32)⟩

def zeroTable (s : Space) (tabl : ℕ) : Space :=
  { s with tables := Function.update s.tables tabl (some fun _ => Page.zero) }

def tableClone (M : Machine) (src tabl : ℕ) : Option Machine :=
  (List.range 1024).foldlM (clonePage src tabl) { M with space := zeroTable M.space tabl }

def PageDir.setSlot (d : PageDir) (i : ℕ) (tabl : Option ℕ) (entry : Entry) : PageDir :=
  { d with
    tabls := Function.update d.tabls i tabl
    entries := Function.update d.entries i entry }

/-- One iteration of `page_dir_clone`. Slot `i` gets the block `kmalloc i`
for its table, whose physical address is `physaddr (kmalloc i)`. -/
def cloneSlot (kmalloc physaddr : ℕ → ℕ) (kernelPd src : PageDir) (st : PageDir × Machine)
    (i : ℕ) : Option (PageDir × Machine) :=
  match src.tabls i with
  | none => some st
  | some t =>
    if kernelPd.tabls i = some t then
      some (st.1.setSlot i (some t) (src.entries i), st.2)
    else
      (tableClone st.2 t (kmalloc i)).map fun M =>
        (st.1.setSlot i (some (kmalloc i)) ⟨true, true, true, physaddr (kmalloc i) / 2 ^ 12⟩, M)

/-- The directory is a block at physical address `phys`; its entries start one
page further. -/
def pageDirClone (kmalloc physaddr : ℕ → ℕ) (phys : ℕ) (kernelPd src : PageDir) (M : Machine) :
    Option (PageDir × Machine) :=
  (List.range 1024).foldlM (cloneSlot kmalloc physaddr kernelPd src)
    (⟨fun _ => none, fun _ => Entry.zero, add32 phys 4096⟩, M)

def releasePage (s : Space) (tabl : ℕ) (m : FrameMap) (j : ℕ) : FrameMap :=
  if (readPage s ⟨tabl, j⟩).addr ≠ 0 then freeFrame m (readPage s ⟨tabl, j⟩).addr else m

/-- One iteration of `release_directory`. `kfree` leaves the contents of a
table as they are, so that all pages are read from the tables as they were. -/
def releaseSlot (kernelPd dir : PageDir) (s : Space) (m : FrameMap) (i : ℕ) : FrameMap :=
  match dir.tabls i with
  | none => m
  | some t =>
    if kernelPd.tabls i ≠ some t then (List.range 1024).foldl (releasePage s t) m else m

def releaseDirectory (kernelPd dir : PageDir) (s : Space) : Space :=
  { s with
    frames := (List.range 1024).foldl (releaseSlot kernelPd dir s) s.frames
    tables := fun t =>
      if (List.range 1024).any fun i => dir.tabls i == some t && kernelPd.tabls i != some t
      then none else s.tables t }

end Bingos.Mmap
