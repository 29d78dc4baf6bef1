import Bingos.MmapPages

set_option autoImplicit false

/-! The loops of `mmu_init`. Before the kernel heap exists `kmalloc_i` is
`pre_alloc`, so that each new page table moves the placement address, which
bounds one of the loops. -/
namespace Bingos.Mmap
open MachineWords Frames

def kheapInitialSize : ℕ := 0x2000000

def kheapMaxSize : ℕ := 0x10000000

structure Boot where
  space : Space
  placementAddr : ℕ

def bootPage (b : Boot) (virt : ℕ) (make : Bool) : Option PageRef × Boot :=
  let block := preAlloc b.placementAddr 4096 true
  let r := getPage (fun _ => block.1) b.space virt make
  (r.1, ⟨r.2, if (b.space.tabls (pageDirectoryIndex virt)).isNone && make then block.2
    else b.placementAddr⟩)

def makeLoop (b : Boot) (virt stop : ℕ) : ℕ → Option Boot
  | 0 => none
  | fuel + 1 =>
    if virt < stop then makeLoop (bootPage b virt true).2 (add32 virt 0x1000) stop fuel else some b

def bootMap (s : Space) (r : Option PageRef) : Option Space :=
  r.bind fun r => pageMap s r true false

def identityLoop (b : Boot) (virt : ℕ) : ℕ → Option Boot
  | 0 => none
  | fuel + 1 =>
    if virt < add32 b.placementAddr 0x1000 then
      (bootMap (bootPage b virt true).2.space (bootPage b virt true).1).bind fun s =>
        identityLoop ⟨s, (bootPage b virt true).2.placementAddr⟩ (add32 virt 0x1000) fuel
    else some b

def heapLoop (b : Boot) (virt stop : ℕ) : ℕ → Option Boot
  | 0 => none
  | fuel + 1 =>
    if virt < stop then
      (bootMap b.space (bootPage b virt false).1).bind fun s =>
        heapLoop ⟨s, b.placementAddr⟩ (add32 virt 0x1000) stop fuel
    else some b

/-- `none` is a failed assertion of `get_frame`. -/
def pageIdenticalMap (s : Space) (r : PageRef) (kernel rw : Bool) (virt : ℕ) : Option Space :=
  if (readPage s r).addr ≠ 0 then some s
  else (getFrame s.frames (virt / 2 ^ 12)).map fun m =>
    writePage { s with frames := m } r (mappedPage kernel rw (virt / 2 ^ 12))

def frameBufferLoop (b : Boot) (virt stop : ℕ) : ℕ → Option Boot
  | 0 => none
  | fuel + 1 =>
    if virt < stop then
      ((bootPage b virt true).1.bind fun r =>
        pageIdenticalMap (bootPage b virt true).2.space r true false virt).bind fun s =>
        frameBufferLoop ⟨s, (bootPage b virt true).2.placementAddr⟩ (add32 virt 0x1000) stop fuel
    else some b

/-- The kernel directory and the state it leaves, up to the end of the loops.
`sizeof(page_dir_t)` is 8196. -/
def mmuInit (frames : FrameMap) (placementAddr frameBuffer fbLength fuel : ℕ) :
    Option (ℕ × Boot) :=
  let kernelPd := preAlloc placementAddr 8196 true
  if kernelPd.1 % 0x1000 ≠ 0 then none
  else
    (makeLoop ⟨⟨frames, fun _ => none, fun _ => none, []⟩, kernelPd.2⟩
      kheapStart (kheapStart + kheapMaxSize) fuel).bind fun b =>
    (makeLoop b frameBuffer (add32 frameBuffer fbLength) fuel).bind fun b =>
    (identityLoop b 0 fuel).bind fun b =>
    (heapLoop b kheapStart (kheapStart + kheapInitialSize) fuel).bind fun b =>
    (frameBufferLoop b frameBuffer (add32 frameBuffer fbLength) fuel).map fun b =>
      (kernelPd.1, b)

end Bingos.Mmap
