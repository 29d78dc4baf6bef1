import Bingos.FrameModel
import Bingos.StepRuns

set_option autoImplicit false

/-! Page tables, frames and the area list of one process. Page tables live in
kernel memory and are named by their address; a page entry is a table and an
index into it, so that directories sharing a table share its entries. -/
namespace Bingos.Mmap
open MachineWords Frames StepRuns

def pageSize : ℕ := 4096

def pageAlign (a : ℕ) : ℕ := add32 a (pageSize - 1) / pageSize * pageSize

def pageDirectoryIndex (virt : ℕ) : ℕ := virt / 2 ^ 22 % 1024

def pageTableIndex (virt : ℕ) : ℕ := virt / 2 ^ 12 % 1024

structure Page where
  present : Bool
  rw : Bool
  user : Bool
  accessed : Bool
  dirty : Bool
  addr : ℕ

def Page.zero : Page := ⟨false, false, false, false, false, 0⟩

abbrev Table := ℕ → Page

structure PageRef where
  table : ℕ
  index : ℕ
  deriving DecidableEq

structure VmArea where
  vmStart : ℕ
  vmEnd : ℕ
  deriving DecidableEq

/-- `tables` are all page tables in kernel memory, `tabls` those of the
directory of the process. -/
structure Space where
  frames : FrameMap
  tables : ℕ → Option Table
  tabls : ℕ → Option ℕ
  mmap : List VmArea

def readPage (s : Space) (r : PageRef) : Page :=
  match s.tables r.table with
  | some t => t r.index
  | none => Page.zero

def writePage (s : Space) (r : PageRef) (p : Page) : Space :=
  match s.tables r.table with
  | some t =>
    { s with tables := Function.update s.tables r.table (some (Function.update t r.index p)) }
  | none => s

/-- `kmalloc i` is the block the kernel heap returns for the table of slot `i`. -/
def getPage (kmalloc : ℕ → ℕ) (s : Space) (virt : ℕ) (make : Bool) : Option PageRef × Space :=
  let pdidx := pageDirectoryIndex virt
  match s.tabls pdidx with
  | some t => (some ⟨t, pageTableIndex virt⟩, s)
  | none =>
    if make then
      let t := kmalloc pdidx
      (some ⟨t, pageTableIndex virt⟩,
        { s with
          tables := Function.update s.tables t (some (fun _ => Page.zero))
          tabls := Function.update s.tabls pdidx (some t) })
    else (none, s)

/-- The entry `page_map` fills in; the frame number is stored in a field of 20 bits. -/
def mappedPage (kernel rw : Bool) (frame : ℕ) : Page :=
  { Page.zero with rw := rw, user := !kernel, present := true, addr := frame % 2 ^ 20 }

def pageMap (s : Space) (r : PageRef) (kernel rw : Bool) : Option Space :=
  if (readPage s r).addr ≠ 0 then some s
  else match allocFrame s.frames with
    | some (frame, m) => some (writePage { s with frames := m } r (mappedPage kernel rw frame))
    | none => none

def pageUnmap (s : Space) (r : PageRef) : Space :=
  let p := readPage s r
  writePage { s with frames := freeFrame s.frames p.addr } r { p with addr := 0 }

/-- The page loop of `do_munmap`; the assertion of `page_unmap` fails on a
page without a table. -/
def unmapLoop (s : Space) (i stop : ℕ) : ℕ → Option Space
  | 0 => none
  | fuel + 1 =>
    if i < stop then
      match (getPage id s i false).1 with
      | some r => unmapLoop (pageUnmap s r) (add32 i pageSize) stop fuel
      | none => none
    else some s

def pageFuel : ℕ := 2 ^ 20 + 2

def overlaps (addr stop : ℕ) (a : VmArea) : Bool := !(stop ≤ a.vmStart || a.vmEnd ≤ addr)

def doMunmap (s : Space) (addr len : ℕ) : Option Space :=
  let stop := add32 addr len
  let len := pageAlign len
  if len = 0 then some s
  else if s.mmap.any (overlaps addr stop) then
    unmapLoop { s with mmap := s.mmap.filter (fun a => !overlaps addr stop a) }
      addr (add32 addr len) pageFuel
  else some s

def mapLoop (kmalloc : ℕ → ℕ) (s : Space) (i stop : ℕ) : ℕ → Option Space
  | 0 => none
  | fuel + 1 =>
    if i ≤ stop then
      match getPage kmalloc s i true with
      | (some r, s) =>
        match pageMap s r false true with
        | some s => mapLoop kmalloc s (add32 i pageSize) stop fuel
        | none => none
      | (none, _) => none
    else some s

def insertVm (areas : List VmArea) (area : VmArea) : List VmArea :=
  areas.takeWhile (fun a => a.vmStart ≤ area.vmStart) ++
    area :: areas.dropWhile (fun a => a.vmStart ≤ area.vmStart)

def doMmap (kmalloc : ℕ → ℕ) (s : Space) (addr len : ℕ) : Option Space :=
  let len := pageAlign len
  if len = 0 then some s
  else
    match doMunmap s addr len with
    | none => none
    | some s =>
      match mapLoop kmalloc s addr (add32 addr len) pageFuel with
      | none => none
      | some s => some { s with mmap := insertVm s.mmap ⟨addr, add32 addr len⟩ }

end Bingos.Mmap
