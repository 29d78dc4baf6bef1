import Bingos.HeapGrowth
import Bingos.FrameCopies
import Bingos.ModuleModel

set_option autoImplicit false

/-! `do_exec` and the loading of the sections of an ELF file. The file is staged
over the user stack, and the kernel reaches it and the sections through the page
tables of the process. -/
namespace Bingos.Mmap
open MachineWords Frames CStrings ByteMemory Modules

def ustackBottom : ℕ := 0x30000000

def ustackSize : ℕ := 0x10000

/-- The physical address that the tables in `tabls` give for `virt`; `none` is a page fault. `get_page`
sets the entry of the directory, which the processor reads, together with the table. -/
def walk (s : Space) (virt : ℕ) : Option ℕ :=
  match s.tabls (pageDirectoryIndex virt) with
  | none => none
  | some t =>
    let p := readPage s ⟨t, pageTableIndex virt⟩
    if p.present then some (frameByte p.addr (virt % 0x1000)) else none

def loadByte (M : Machine) (virt : ℕ) : Option UInt8 := (walk M.space virt).map M.phys

def storeByte (M : Machine) (virt : ℕ) (b : UInt8) : Option Machine :=
  (walk M.space virt).map fun a => { M with phys := Function.update M.phys a b }

/-- `memset` and the reading of a file write bytes that do not depend on the memory. -/
def storeBytes (M : Machine) (virt : ℕ) : Bytes → Option Machine
  | [] => some M
  | b :: bs => (storeByte M (virt % 2 ^ 32) b).bind fun M => storeBytes M (virt + 1) bs

def memcpy (M : Machine) (dst src : ℕ) : ℕ → Option Machine
  | 0 => some M
  | count + 1 =>
    (loadByte M (src % 2 ^ 32)).bind fun b => (storeByte M (dst % 2 ^ 32) b).bind fun M =>
      memcpy M (dst + 1) (src + 1) count

def view (M : Machine) : Memory := fun a => (loadByte M a).getD 0

def readable (M : Machine) (a n : ℕ) : Bool :=
  (List.range n).all fun k => (loadByte M ((a + k) % 2 ^ 32)).isSome

/-- The mapping of a section; the fields are read again after it. `do_mmap`
returns its address where the aligned length is zero, which fails the assertion. -/
def mapSection (kmalloc : ℕ → ℕ) (M : Machine) (shdr : ℕ) : Option Machine :=
  if shAddr (view M) shdr = 0 then some M
  else if pageAlign (add32 (shSize (view M) shdr) 0x2000) = 0 then none
  else (doMmap kmalloc M.space (shAddr (view M) shdr)
    (add32 (shSize (view M) shdr) 0x2000)).map fun s => { M with space := s }

def fillSection (M : Machine) (ehdr shdr : ℕ) : Option Machine :=
  if shType (view M) shdr = shtNobits then
    storeBytes M (shAddr (view M) shdr) (List.replicate (shSize (view M) shdr) 0)
  else
    memcpy M (shAddr (view M) shdr) (add32 ehdr (shOffset (view M) shdr)) (shSize (view M) shdr)

def loadSection (kmalloc : ℕ → ℕ) (M : Machine) (ehdr shdr : ℕ) : Option Machine :=
  if readable M shdr 40 then
    (mapSection kmalloc M shdr).bind fun M =>
      if readable M shdr 40 then fillSection M ehdr shdr else none
  else none

/-- `none` is a page fault or a failed assertion. -/
def loadLoop (kmalloc : ℕ → ℕ) (ehdr : ℕ) (M : Machine) (virt : ℕ) : ℕ → Option Machine
  | 0 => none
  | fuel + 1 =>
    if readable M ehdr 52 then
      if virt < eShentsize (view M) ehdr * eShnum (view M) ehdr then
        (loadSection kmalloc M ehdr (add32 ehdr (add32 (eShoff (view M) ehdr) virt))).bind fun M =>
          loadLoop kmalloc ehdr M (add32 virt (eShentsize (view M) ehdr)) fuel
      else some M
    else none

/-- It returns `true` whenever it returns. -/
def elfLoadSections (kmalloc : ℕ → ℕ) (M : Machine) (ehdr : ℕ) : Option Machine :=
  loadLoop kmalloc ehdr M 0 sectionFuel

structure ExecProcess where
  machine : Machine
  brk : ℕ
  ustack : ℕ

inductive ExecResult where
  | panic
  | returned (ret : ℤ) (p : ExecProcess)
  | entered (entry : ℕ) (p : ExecProcess)

def enterProgram (kmalloc : ℕ → ℕ) (len : ℕ) (M : Machine) : ExecResult :=
  match (doMunmap M.space ustackBottom len).bind fun s =>
      (doMmap kmalloc s ustackBottom ustackSize).bind fun s =>
        doMmap kmalloc s uheapStart uheapInitialSize with
  | none => .panic
  | some s => .entered (load32 (view M) (ustackBottom + 24))
      ⟨{ M with space := s }, uheapStart, ustackBottom + ustackSize⟩

def checkAndLoad (kmalloc : ℕ → ℕ) (p : ExecProcess) (len : ℕ) (M : Machine) : ExecResult :=
  if readable M ustackBottom 52 then
    if elfEhdrCheck (view M) ustackBottom then
      match elfLoadSections kmalloc M ustackBottom with
      | none => .panic
      | some M => enterProgram kmalloc len M
    else .returned (-1) { p with machine := M }
  else .panic

def doExec (kmalloc : ℕ → ℕ) (vfsLookup : Bytes → Option Bytes) (path : Bytes)
    (p : ExecProcess) : ExecResult :=
  match vfsLookup path with
  | none => .panic
  | some file =>
    if pageAlign file.length = 0 then .panic
    else match (doMmap kmalloc p.machine.space ustackBottom file.length).bind fun s =>
        storeBytes { p.machine with space := s } ustackBottom file with
      | none => .panic
      | some M =>
        if file.length < 52 then .panic else checkAndLoad kmalloc p file.length M

def sysExec (kmalloc : ℕ → ℕ) (vfsLookup : Bytes → Option Bytes) (path : Bytes)
    (p : ExecProcess) : ExecResult :=
  doExec kmalloc vfsLookup path p

end Bingos.Mmap
