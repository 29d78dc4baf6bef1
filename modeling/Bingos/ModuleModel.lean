import Bingos.ByteMemory
import Bingos.HashmapModel

set_option autoImplicit false

/-! `module_load` of `kernel/module.c` up to the end of its relocation pass, on the bytes of the
object in memory. `kmalloc n size` is the address the `n`-th allocation returns. -/
namespace Bingos.Modules

open CStrings ByteMemory StringMaps

def load16 (m : Memory) (a : ℕ) : ℕ := ofLE (load m a 2)

theorem load16_lt (m : Memory) (a : ℕ) : load16 m a < 2 ^ 16 := by
  have h := ofLE_lt (load m a 2)
  rw [length_load] at h
  exact h

def load8 (m : Memory) (a : ℕ) : ℕ := (m (a % 2 ^ 32)).toNat

def nameAt (m : Memory) (a : ℕ) : Bytes := (loadCString m a (2 ^ 32)).getD []

def shtSymtab : ℕ := 2
def shtStrtab : ℕ := 3
def shtNobits : ℕ := 8
def shtRel : ℕ := 9
def stbGlobal : ℕ := 1
def sttSection : ℕ := 3
def shnCommon : ℕ := 65522

section Header

variable (m : Memory) (ehdr : ℕ)

def eShoff : ℕ := load32 m (ehdr + 32)
def eShentsize : ℕ := load16 m (ehdr + 46)
def eShnum : ℕ := load16 m (ehdr + 48)
def eShstrndx : ℕ := load16 m (ehdr + 50)

def elfEhdrCheck : Bool :=
  load32 m ehdr == 0x464C457F && (load8 m (ehdr + 6) == 1 && load32 m (ehdr + 20) == 1) &&
    (load8 m (ehdr + 4) == 1 && load8 m (ehdr + 5) == 1 && load16 m (ehdr + 18) == 3)

def shdrAt (x : ℕ) : ℕ := ehdr + eShoff m ehdr + x

def shdrs : List ℕ :=
  if eShentsize m ehdr = 0 then []
  else (List.range (eShnum m ehdr)).map fun i => shdrAt m ehdr (i * eShentsize m ehdr)

end Header

section Records

variable (m : Memory) (p : ℕ)

def shName : ℕ := load32 m p
def shType : ℕ := load32 m (p + 4)
def shAddr : ℕ := load32 m (p + 12)
def shOffset : ℕ := load32 m (p + 16)
def shSize : ℕ := load32 m (p + 20)
def shLink : ℕ := load32 m (p + 24)
def shInfo : ℕ := load32 m (p + 28)

def stName : ℕ := load32 m p
def stValue : ℕ := load32 m (p + 4)
def stInfo : ℕ := load8 m (p + 12)
def stShndx : ℕ := load16 m (p + 14)

def rOffset : ℕ := load32 m p
/-- The loader's `elf32_rel` declares `r_info` with 16 bits. -/
def rInfo : ℕ := load16 m (p + 4)

end Records

def elf32StBind (i : ℕ) : ℕ := i / 16
def elf32StType (i : ℕ) : ℕ := i % 16
def elf32RSym (i : ℕ) : ℕ := i / 256
def elf32RType (i : ℕ) : ℕ := i % 256

def findShstrtab (m : Memory) (ehdr : ℕ) : ℕ :=
  match (shdrs m ehdr)[eShstrndx m ehdr]? with
  | some p => (ehdr + shOffset m p) % 2 ^ 32
  | none => 0

def strtabName : Bytes := [46, 115, 116, 114, 116, 97, 98]

def isStrtab (m : Memory) (shstrtab p : ℕ) : Bool :=
  shType m p == shtStrtab && nameAt m (shstrtab + shName m p) == strtabName

def findSymstrtab (m : Memory) (ehdr shstrtab : ℕ) : ℕ :=
  (shdrs m ehdr).foldl (fun symstrtab p =>
    if isStrtab m shstrtab p then (ehdr + shOffset m p) % 2 ^ 32 else symstrtab) 0

def findSymShdr (m : Memory) (ehdr : ℕ) : ℕ :=
  (shdrs m ehdr).foldl (fun symShdr p => if shType m p = shtSymtab then p else symShdr) 0

structure Loader where
  mem : Memory
  symboltable : Hashmap
  localSymbols : Hashmap
  /-- The number of allocations so far. -/
  allocations : ℕ

/-- A loop over the section headers that reads the ELF header anew in every round; an error is
an early `return NULL`. -/
def sectionLoop (ehdr : ℕ) (body : ℕ → Loader → Except Loader Loader) :
    ℕ → ℕ → Loader → Except Loader Loader
  | 0, _, s => .error s
  | fuel + 1, x, s =>
    if x < eShentsize s.mem ehdr * eShnum s.mem ehdr then
      match body (shdrAt s.mem ehdr x) s with
      | .error s' => .error s'
      | .ok s' => sectionLoop ehdr body fuel (x + eShentsize s'.mem ehdr) s'
    else
      .ok s

def placeSection (kmalloc : ℕ → ℕ → ℕ) (ehdr p : ℕ) (s : Loader) : Except Loader Loader :=
  if shType s.mem p = shtNobits then
    let size := shSize s.mem p
    let addr := kmalloc s.allocations size
    .ok { s with
      mem := store (store32 s.mem (p + 12) addr) addr (List.replicate size 0)
      allocations := s.allocations + 1 }
  else
    .ok { s with mem := store32 s.mem (p + 12) ((ehdr + shOffset s.mem p) % 2 ^ 32) }

def bindSymbol (s : Loader) (name : Bytes) (final : ℕ) : Loader :=
  { s with
    symboltable := hashmapSet s.symboltable name final
    localSymbols := hashmapSet s.localSymbols name final }

def readSymbol (kmalloc : ℕ → ℕ → ℕ) (ehdr symstrtab sym : ℕ) (s : Loader) (undefined : Bool) :
    Loader × Bool :=
  if stName s.mem sym ≠ 0 ∧ elf32StBind (stInfo s.mem sym) = stbGlobal then
    let name := nameAt s.mem (symstrtab + stName s.mem sym)
    if stShndx s.mem sym = 0 then
      (s, undefined || hashmapGet s.symboltable name == 0)
    else
      match (shdrs s.mem ehdr)[stShndx s.mem sym]? with
      | some p => (bindSymbol s name ((shAddr s.mem p + stValue s.mem sym) % 2 ^ 32), undefined)
      | none =>
        if stShndx s.mem sym = shnCommon ∧ hashmapGet s.symboltable name = 0 then
          (bindSymbol { s with allocations := s.allocations + 1 } name
            (kmalloc s.allocations (stValue s.mem sym)), undefined)
        else (s, undefined)
  else (s, undefined)

def symbolLoop (kmalloc : ℕ → ℕ → ℕ) (ehdr symstrtab symShdr : ℕ) :
    ℕ → ℕ → Loader → Bool → Except Loader (Loader × Bool)
  | 0, _, s, _ => .error s
  | fuel + 1, t, s, undefined =>
    if t % 2 ^ 32 < shSize s.mem symShdr then
      let r := readSymbol kmalloc ehdr symstrtab (ehdr + shOffset s.mem symShdr + t) s undefined
      symbolLoop kmalloc ehdr symstrtab symShdr fuel (t + 16) r.1 r.2
    else .ok (s, undefined)

def symbolAddress (ehdr symstrtab sym : ℕ) (s : Loader) : ℕ :=
  if elf32StType (stInfo s.mem sym) = sttSection then
    shAddr s.mem (shdrAt s.mem ehdr (stShndx s.mem sym * eShentsize s.mem ehdr))
  else hashmapGet s.symboltable (nameAt s.mem (symstrtab + stName s.mem sym))

def relocate (ehdr symstrtab symShdr shdr table : ℕ) (s : Loader) : Except Loader Loader :=
  let sym := shAddr s.mem symShdr + 16 * elf32RSym (rInfo s.mem table)
  let rs := shdrAt s.mem ehdr (shInfo s.mem shdr * eShentsize s.mem ehdr)
  let ptr := (rOffset s.mem table + shAddr s.mem rs) % 2 ^ 32
  let addend := load32 s.mem ptr
  let symbol := symbolAddress ehdr symstrtab sym s
  match elf32RType (rInfo s.mem table) with
  | 1 => .ok { s with mem := store32 s.mem ptr ((addend + symbol) % 2 ^ 32) }
  | 2 => .ok { s with mem := store32 s.mem ptr ((addend + symbol + (2 ^ 32 - ptr)) % 2 ^ 32) }
  | _ => .error s

def relocationLoop (ehdr symstrtab symShdr shdr : ℕ) : ℕ → ℕ → Loader → Except Loader Loader
  | 0, _, s => .error s
  | fuel + 1, table, s =>
    if (table + (2 ^ 32 - shAddr s.mem shdr)) % 2 ^ 32 < shSize s.mem shdr then
      match relocate ehdr symstrtab symShdr shdr table s with
      | .error s' => .error s'
      | .ok s' => relocationLoop ehdr symstrtab symShdr shdr fuel (table + 8) s'
    else .ok s

def relocateSection (ehdr symstrtab symShdr p : ℕ) (s : Loader) : Except Loader Loader :=
  if shType s.mem p = shtRel then
    relocationLoop ehdr symstrtab symShdr p (shSize s.mem p / 8 + 1) (shAddr s.mem p) s
  else .ok s

/-- Rounds enough for every object, also for one whose section headers overlap its ELF header. -/
def sectionFuel : ℕ := 2 ^ 32

def moduleLoad (kmalloc : ℕ → ℕ → ℕ) (ehdr : ℕ) (s : Loader) : Except Loader Loader :=
  if elfEhdrCheck s.mem ehdr = false then .error s
  else if findShstrtab s.mem ehdr = 0 then .error s
  else if findSymstrtab s.mem ehdr (findShstrtab s.mem ehdr) = 0 then .error s
  else if findSymShdr s.mem ehdr = 0 then .error s
  else
    let symstrtab := findSymstrtab s.mem ehdr (findShstrtab s.mem ehdr)
    let symShdr := findSymShdr s.mem ehdr
    match sectionLoop ehdr (placeSection kmalloc ehdr) sectionFuel 0 s with
    | .error s => .error s
    | .ok s =>
      match symbolLoop kmalloc ehdr symstrtab symShdr (shSize s.mem symShdr / 16 + 2) 0
          { s with localSymbols := hashmapCreate 10 } false with
      | .error s => .error s
      | .ok (s, undefined) =>
        if undefined then .error s
        else sectionLoop ehdr (relocateSection ehdr symstrtab symShdr) sectionFuel 0 s

end Bingos.Modules
