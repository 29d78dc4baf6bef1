import Bingos.ByteMemory

set_option autoImplicit false

/-! The ramdisk image: its writer `tools/initrd.c` and its reader `fs/initrd.c`. -/
namespace Bingos.Initrd

open CStrings ByteMemory

/-- A pair of command line arguments: the target name and the bytes of the host file. -/
structure HostFile where
  name : Bytes
  content : Bytes
  nulFree : 0 ∉ name
  name_short : name.length < 64

/-- A `struct initrd_header` with its padding; `offset` and `length` are 32-bit. -/
structure Header where
  magic : UInt8
  name : Bytes
  padding : Bytes
  offset : ℕ
  length : ℕ
  length_name : name.length = 64
  length_padding : padding.length = 3

def headerSize : ℕ := 76

def headerSlots : ℕ := 64

def Header.bytes (h : Header) : Bytes :=
  (h.magic :: (h.name ++ h.padding)) ++ (toLE 4 h.offset ++ toLE 4 h.length)

def overwriteName (old name : Bytes) : Bytes := name ++ 0 :: old.drop (name.length + 1)

theorem length_overwriteName {old name : Bytes} (h : name.length < old.length) :
    (overwriteName old name).length = old.length := by
  simp only [overwriteName, List.length_append, List.length_cons, List.length_drop]
  omega

def Header.fill (h : Header) (f : HostFile) (off : ℕ) : Header where
  magic := 0xBF
  name := overwriteName h.name f.name
  padding := h.padding
  offset := off
  length := f.content.length % 2 ^ 32
  length_name := by
    rw [length_overwriteName, h.length_name]
    rw [h.length_name]
    exact f.name_short
  length_padding := h.length_padding

def fillHeaders : ℕ → List HostFile → List Header → List Header
  | _, [], headers => headers
  | _, _ :: _, [] => []
  | off, f :: files, h :: headers =>
    h.fill f off :: fillHeaders ((off + (h.fill f off).length) % 2 ^ 32) files headers

def initrdImage (files : List HostFile) (stack : List Header) : Bytes :=
  toLE 4 files.length ++
    ((fillHeaders (headerSize * headerSlots + 4) files stack).flatMap Header.bytes ++
      files.flatMap fun f => f.content.take (f.content.length % 2 ^ 32))

structure Node where
  name : Bytes
  length : ℕ
  inode : ℕ
deriving DecidableEq

/-- The ramdisk's globals, with the memory that holds `file_headers` and the contents. -/
structure Ramdisk where
  mem : Memory
  fileHeaders : ℕ
  rootNodes : List Node

def nodeNameSize : ℕ := 128

def headerAddress (fileHeaders i : ℕ) : ℕ := fileHeaders + headerSize * i

def headerOffset (m : Memory) (fileHeaders i : ℕ) : ℕ := load32 m (headerAddress fileHeaders i + 68)

def headerLength (m : Memory) (fileHeaders i : ℕ) : ℕ := load32 m (headerAddress fileHeaders i + 72)

/-- The loop of `initrd_init`; it reads the number of files anew in every round. A name that
overruns its node has no result. -/
def initLoop (location : ℕ) : ℕ → ℕ → Ramdisk → Option Ramdisk
  | 0, _, _ => none
  | fuel + 1, i, r =>
    if i < load32 r.mem location then
      let m := store32 r.mem (headerAddress r.fileHeaders i + 68)
        ((headerOffset r.mem r.fileHeaders i + location) % 2 ^ 32)
      (loadCString m (headerAddress r.fileHeaders i + 1) nodeNameSize).bind fun name =>
        initLoop location fuel (i + 1)
          ⟨m, r.fileHeaders, r.rootNodes ++ [⟨name, headerLength m r.fileHeaders i, i⟩]⟩
    else
      some r

def initrdInit (m : Memory) (location : ℕ) : Option Ramdisk :=
  initLoop location (load32 m location + 1) 0 ⟨m, (location + 4) % 2 ^ 32, []⟩

def initrdFinddir (r : Ramdisk) (name : Bytes) : Option Node :=
  r.rootNodes.find? fun n => name = n.name

def initrdRead (r : Ramdisk) (node : Node) (offset size : ℕ) : Bytes × ℕ :=
  let length := headerLength r.mem r.fileHeaders node.inode
  if length < offset then
    ([], 0)
  else
    let size := if length < (offset + size) % 2 ^ 32 then length - offset else size
    (load r.mem ((headerOffset r.mem r.fileHeaders node.inode + offset) % 2 ^ 32) size, size)

end Bingos.Initrd
