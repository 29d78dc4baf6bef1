import Bingos.ExecFailure
import Bingos.MmapPlans

set_option autoImplicit false

/-! What `elf_load_sections` leaves in memory. Every section is mapped with a
`do_mmap` that first unmaps what the enlarged range meets, and is copied to its
address whether it has one or not. -/
namespace Bingos.Mmap
open MachineWords Frames CStrings ByteMemory Modules

def processImage : ℕ := 0x20000000

def fileBytes (f : Bytes) : Memory := fun a => f.getD a 0

def secCount (f : Bytes) : ℕ := eShnum (fileBytes f) 0

section Sections

variable (f : Bytes) (i : ℕ)

def shdrOffset : ℕ := eShoff (fileBytes f) 0 + i * eShentsize (fileBytes f) 0

def secType : ℕ := shType (fileBytes f) (shdrOffset f i)
def secAddr : ℕ := shAddr (fileBytes f) (shdrOffset f i)
def secOffset : ℕ := shOffset (fileBytes f) (shdrOffset f i)
def secSize : ℕ := shSize (fileBytes f) (shdrOffset f i)

def secPage : ℕ := secAddr f i / pageSize

/-- The pages of the enlarged range; the page behind them is mapped with them. -/
def secPages : ℕ := pages (secSize f i + 0x2000)

def sectionBytes : Bytes :=
  if secType f i = shtNobits then List.replicate (secSize f i) 0
  else (f.drop (secOffset f i)).take (secSize f i)

def ToRead (k : ℕ) : Prop :=
  46 ≤ k ∧ k < 50 ∨ ∃ j, i ≤ j ∧ j < secCount f ∧
    (32 ≤ k ∧ k < 36 ∨ shdrOffset f j + 4 ≤ k ∧ k < shdrOffset f j + 8 ∨
      shdrOffset f j + 12 ≤ k ∧ k < shdrOffset f j + 24 ∨
      secType f j ≠ shtNobits ∧ secOffset f j ≤ k ∧ k < secOffset f j + secSize f j)

end Sections

/-- A file whose section headers and sections lie inside it, and whose sections
with an address lie apart from each other in user space, with the pages that
are mapped for them. -/
structure ElfFile (f : Bytes) : Prop where
  header : 52 ≤ f.length
  entsize : 0 < eShentsize (fileBytes f) 0
  table : ∀ i < secCount f, shdrOffset f i + 40 ≤ f.length
  contents : ∀ i < secCount f, secType f i ≠ shtNobits →
    secOffset f i + secSize f i ≤ f.length
  low : ∀ i < secCount f, secAddr f i = 0 → secSize f i ≤ processImage
  user : ∀ i < secCount f, secAddr f i ≠ 0 → processImage ≤ secAddr f i ∧
    secAddr f i + secSize f i ≤ kheapStart ∧ secPage f i + secPages f i < kheapStart / pageSize
  apart : ∀ i < secCount f, ∀ j < secCount f, i ≠ j →
    secAddr f i ≠ 0 → secAddr f j ≠ 0 →
      secAddr f i + secSize f i ≤ secAddr f j ∨ secAddr f j + secSize f j ≤ secAddr f i

/-- The file lies in mapped pages of user space from `ehdr` on, as far as it is
still read from round `i` on. -/
structure Image (M : Machine) (ehdr : ℕ) (f : Bytes) (i : ℕ) : Prop where
  above : processImage ≤ ehdr
  inside : ehdr + f.length ≤ kheapStart
  framed : ∀ k < f.length, frameOf M.space ((ehdr + k) / 0x1000) ≠ 0
  bytes : ∀ k < f.length, ToRead f i k → loadByte M (ehdr + k) = f[k]?

/-- The first `n` sections are in place and no byte of the kernel has changed. -/
structure Loaded (f : Bytes) (M M' : Machine) (n : ℕ) : Prop where
  sections : ∀ i < n, secAddr f i ≠ 0 → ∀ k < secSize f i,
    loadByte M' (secAddr f i + k) = (sectionBytes f i)[k]?
  kernel : ∀ virt < 2 ^ 32, virt < processImage ∨ kheapStart ≤ virt →
    loadByte M' virt = loadByte M virt

/-- A page with bytes of a section loaded before round `i`, or of the file that
are still read. -/
def Carries (f : Bytes) (ehdr i u : ℕ) : Prop :=
  (∃ j < i, secAddr f j ≠ 0 ∧ ∃ k < secSize f j, (secAddr f j + k) / 0x1000 = u) ∨
    ∃ k < f.length, ToRead f i k ∧ (ehdr + k) / 0x1000 = u

def planBefore (f : Bytes) (x : Plan) : ℕ → Plan
  | 0 => x
  | n + 1 => if secAddr f n = 0 then planBefore f x n
    else (planBefore f x n).mmap (secAddr f n) (secSize f n + 0x2000)

def wanted (f : Bytes) (s : Space) : Finset ℕ :=
  (Finset.range (kheapStart / pageSize)).filter fun u => frameOf s u = 0 ∧
    ∃ i < secCount f, secAddr f i ≠ 0 ∧ InRange (secPage f i) (secPages f i + 1) u

/-- Section `i` can be loaded, judged from the state before the call. Without an
address it is at address zero already. With one, a range that meets an area has
frames in all its pages, a page with bytes of earlier sections or of the file
gets the frame that it has, and where the section covers bytes of the file that
are read later it has the same bytes. -/
structure Loadable (f : Bytes) (ehdr : ℕ) (M : Machine) (i : ℕ) : Prop where
  unaddressed : secAddr f i = 0 → ∀ k < secSize f i, loadByte M k = (sectionBytes f i)[k]?
  covered : secAddr f i ≠ 0 →
    (planBefore f M.space.plan i).meets (secAddr f i) (secSize f i + 0x2000) = true →
      ∀ u, InRange (secPage f i) (secPages f i) u →
        (planBefore f M.space.plan i).supply.frame u ≠ 0
  settled : ∀ u, Carries f ehdr i u → (planBefore f M.space.plan (i + 1)).supply.frame u =
    (planBefore f M.space.plan i).supply.frame u
  agrees : secAddr f i ≠ 0 → ∀ j < secSize f i, ∀ k < f.length, secAddr f i + j = ehdr + k →
    (ToRead f (i + 1) k ∨ secType f i ≠ shtNobits ∧
      ∃ t, j < t ∧ t < secSize f i ∧ k = secOffset f i + t) → (sectionBytes f i)[j]? = f[k]?

def loadFirst (kmalloc : ℕ → ℕ) (ehdr : ℕ) (M : Machine) : ℕ → Option Machine
  | 0 => some M
  | n + 1 => (loadFirst kmalloc ehdr M n).bind fun M => loadSection kmalloc M ehdr
      (add32 ehdr (add32 (eShoff (view M) ehdr) (n * eShentsize (view M) ehdr)))

/-- Round `i` of a load that began in `M₀` takes `M` to `M'` and does its part:
the pages of the section have frames, those with bytes of earlier sections or of
the file are where they were, the rest of the file can still be read, and the
sections so far are in place. -/
structure RightRound (f : Bytes) (ehdr : ℕ) (M₀ M M' : Machine) (i : ℕ) : Prop where
  mapped : secAddr f i ≠ 0 → ∀ u, InRange (secPage f i) (secPages f i + 1) u →
    frameOf M'.space u ≠ 0
  settled : ∀ u, Carries f ehdr i u → frameOf M'.space u = frameOf M.space u
  file : ∀ k < f.length, ToRead f (i + 1) k → loadByte M' (ehdr + k) = f[k]?
  loaded : Loaded f M₀ M' (i + 1)

/-- The call returns with all sections in place and the kernel unchanged, and
every round of it does its part. -/
def RightLoad (f : Bytes) (kmalloc : ℕ → ℕ) (ehdr : ℕ) (M : Machine) : Prop :=
  (∃ M', elfLoadSections kmalloc M ehdr = some M' ∧ Loaded f M M' (secCount f)) ∧
    ∀ i < secCount f, ∀ M₁, loadFirst kmalloc ehdr M i = some M₁ →
      ∃ M₂, loadFirst kmalloc ehdr M (i + 1) = some M₂ ∧ RightRound f ehdr M M₁ M₂ i

variable {f : Bytes} {M M' : Machine} {s t : Space} {ehdr i k n off virt : ℕ}

theorem ToRead.of_succ (h : ToRead f (i + 1) k) : ToRead f i k := by
  obtain h | ⟨j, hj, h⟩ := h
  · exact .inl h
  · exact .inr ⟨j, by omega, h⟩

section Image

variable (h : Image M ehdr f i)
include h

theorem Image.addr_lt (hk : k < f.length) : ehdr + k < kheapStart := by
  have hin := h.inside
  omega

theorem Image.load_eq (hoff : off + n ≤ f.length)
    (hread : ∀ k, off ≤ k → k < off + n → ToRead f i k) :
    load (view M) (ehdr + off) n = load (fileBytes f) off n := by
  refine List.map_congr_left fun k hk => ?_
  rw [List.mem_range] at hk
  have hlt := h.addr_lt (show off + k < f.length by omega)
  unfold kheapStart at hlt
  rw [Nat.add_assoc, Nat.mod_eq_of_lt (by omega), Nat.mod_eq_of_lt (by omega), view,
    h.bytes _ (by omega) (hread _ (by omega) (by omega)), fileBytes, List.getD_eq_getElem?_getD]

theorem Image.readable (hlive : Live M.space)
    (hoff : off + n ≤ f.length) : readable M (ehdr + off) n = true := by
  refine List.all_eq_true.mpr fun k hk => ?_
  rw [List.mem_range] at hk
  have hlt := h.addr_lt (show off + k < f.length by omega)
  have hlt' : ehdr + (off + k) < 2 ^ 32 := hlt.trans (by decide)
  rw [Nat.add_assoc, Nat.mod_eq_of_lt hlt', loadByte_mapped hlive hlt' (h.framed _ (by omega))]
  rfl

theorem Image.header (hf : 52 ≤ f.length) :
    eShentsize (view M) ehdr = eShentsize (fileBytes f) 0 ∧
      eShnum (view M) ehdr = secCount f := by
  constructor <;> refine congrArg ofLE (h.load_eq (by omega) fun k hlow hhigh => .inl ?_) <;> omega

theorem Image.shoff (hf : 52 ≤ f.length) (hi : i < secCount f) :
    eShoff (view M) ehdr = eShoff (fileBytes f) 0 :=
  congrArg ofLE (h.load_eq (by omega) fun _ hlow hhigh =>
    .inr ⟨i, le_rfl, hi, .inl ⟨hlow, hhigh⟩⟩)

theorem Image.section_header (hi : i < secCount f) (htable : shdrOffset f i + 40 ≤ f.length) :
    shType (view M) (ehdr + shdrOffset f i) = secType f i ∧
      shAddr (view M) (ehdr + shdrOffset f i) = secAddr f i ∧
      shOffset (view M) (ehdr + shdrOffset f i) = secOffset f i ∧
      shSize (view M) (ehdr + shdrOffset f i) = secSize f i := by
  refine ⟨?_, ?_, ?_, ?_⟩
  · refine congrArg ofLE ((congrArg (load (view M) · 4) (Nat.add_assoc _ _ _)).trans
      (h.load_eq (by omega) fun k hlow hhigh => .inr ⟨i, le_rfl, hi, .inr (.inl ?_)⟩))
    omega
  all_goals
    refine congrArg ofLE ((congrArg (load (view M) · 4) (Nat.add_assoc _ _ _)).trans
      (h.load_eq (by omega) fun k hlow hhigh => .inr ⟨i, le_rfl, hi, .inr (.inr (.inl ?_))⟩))
    omega

end Image

theorem sectionBytes_getElem? (hbits : secType f i ≠ shtNobits)
    (hk : k < secSize f i) : (sectionBytes f i)[k]? = f[secOffset f i + k]? := by
  rw [sectionBytes, if_neg hbits, List.getElem?_take_of_lt hk, List.getElem?_drop]

section File

variable (h : ElfFile f) (hi : i < secCount f)

include h hi

theorem ElfFile.end_le : secAddr f i + secSize f i ≤ kheapStart := by
  by_cases haddr : secAddr f i = 0
  · rw [haddr, Nat.zero_add]
    exact (h.low i hi haddr).trans (by decide)
  · exact (h.user i hi haddr).2.1

theorem length_sectionBytes : (sectionBytes f i).length = secSize f i := by
  unfold sectionBytes
  split_ifs with ht
  · rw [List.length_replicate]
  · have hin := h.contents i hi ht
    rw [List.length_take, List.length_drop]
    omega

theorem ElfFile.size_le (haddr : secAddr f i ≠ 0) : secSize f i + 0x2000 ≤ kheapStart := by
  obtain ⟨hlow, hhigh, -⟩ := h.user i hi haddr
  unfold processImage at hlow
  omega

theorem ElfFile.range (haddr : secAddr f i ≠ 0) :
    UserRange (pageSize * (secAddr f i / pageSize)) (secSize f i + 0x2000) ∧
      pageAlign (secSize f i + 0x2000) ≠ 0 ∧
      add32 (secSize f i) 0x2000 = secSize f i + 0x2000 := by
  obtain ⟨-, -, hpages⟩ := h.user i hi haddr
  have hsize := h.size_le hi haddr
  have hge := (pageAlign_bounds hsize).1
  refine ⟨⟨Nat.mul_mod_right _ _, ?_⟩, by omega, add32_of_lt (hsize.trans_lt (by decide))⟩
  rw [pageAlign_eq] at hge
  calc pageSize * (secAddr f i / pageSize) + (secSize f i + 0x2000)
      ≤ pageSize * (secAddr f i / pageSize) + pageSize * pages (secSize f i + 0x2000) :=
        Nat.add_le_add_left hge _
    _ = pageSize * (secAddr f i / pageSize + pages (secSize f i + 0x2000)) :=
        (Nat.mul_add _ _ _).symm
    _ ≤ pageSize * (kheapStart / pageSize) := Nat.mul_le_mul_left _ hpages.le
    _ = kheapStart := by decide

theorem ElfFile.section_page (haddr : secAddr f i ≠ 0) (hk : k < secSize f i) :
    InRange (secPage f i) (secPages f i + 1) ((secAddr f i + k) / 0x1000) := by
  have hal := pageAlign_eq (secSize f i + 0x2000)
  have hge := (pageAlign_bounds (h.size_le hi haddr)).1
  unfold InRange secPage secPages
  unfold pageSize at *
  omega

theorem ElfFile.page_user (haddr : secAddr f i ≠ 0)
    (hin : InRange (secPage f i) (secPages f i + 1) (virt / 0x1000)) :
    processImage ≤ virt ∧ virt < kheapStart := by
  obtain ⟨hlow, -, hpages⟩ := h.user i hi haddr
  unfold InRange secPage at hin
  unfold secPage at hpages
  unfold processImage kheapStart pageSize at *
  omega

end File

theorem walk_settled (hs : Live s) (ht : Live t) (hvirt : virt < 2 ^ 32)
    (hframed : frameOf s (virt / 0x1000) ≠ 0)
    (hsame : frameOf t (virt / 0x1000) = frameOf s (virt / 0x1000)) :
    walk t virt = walk s virt := by
  rw [walk_eq hs hvirt hframed, walk_eq ht hvirt (by rwa [hsame]), byteAddr, byteAddr, hsame]

structure Filled (f : Bytes) (M : Machine) (t : Space) (M' : Machine) (i : ℕ) : Prop where
  space : M'.space = t
  bytes : ∀ k < secSize f i, loadByte M' (secAddr f i + k) = (sectionBytes f i)[k]?
  outside : ∀ virt < 2 ^ 32, ¬ (secAddr f i ≤ virt ∧ virt < secAddr f i + secSize f i) →
    loadByte M' virt = loadByte { M with space := t } virt

theorem store_section (M : Machine) (hfile : ElfFile f) (hi : i < secCount f) (hgood : Good t)
    (hlive : Live t) (hf : ∀ k < secSize f i, frameOf t ((secAddr f i + k) / 0x1000) ≠ 0) :
    ∃ M', storeBytes { M with space := t } (secAddr f i) (sectionBytes f i) = some M' ∧
      Filled f M t M' i := by
  have hlen := length_sectionBytes hfile hi
  have hend := hfile.end_le hi
  obtain ⟨M', hrun, hspace, hbytes, hkept⟩ := storeBytes_mapped (M := { M with space := t }) hgood
    hlive (by rw [hlen]; exact hend) (by rw [hlen]; exact hf)
  obtain rfl : M'.space = t := hspace
  have hlow : ∀ k < secSize f i, secAddr f i + k < kheapStart := fun k hk => by omega
  refine ⟨M', hrun, rfl, fun k hk => ?_, fun virt hvirt hout => ?_⟩
  · rw [loadByte_mapped hlive ((hlow k hk).trans (by decide)) (hf k hk),
      List.getElem?_eq_getElem (by omega)]
    exact congrArg some (hbytes k (by omega))
  · rw [loadByte, loadByte]
    cases hw : walk M'.space virt with
    | none => rfl
    | some a =>
      have ha := walk_byteAddr hvirt hw
      refine congrArg some (hkept a fun k hk he => ?_)
      have := byteAddr_injective hgood (hlow k (by omega)) (hf k (by omega)) (he.symm.trans ha)
      omega

theorem fillSection_space {shdr : ℕ}
    (h : fillSection M ehdr shdr = some M') : M'.space = M.space := by
  unfold fillSection at h
  split_ifs at h
  · exact storeBytes_space h
  · exact memcpy_space h

/-- A section is written with its bytes unless copying changes bytes of it
before they are copied. -/
theorem fillSection_eq (hgood : Good M.space)
    (hlive : Live M.space) (himage : Image M ehdr f i) (hfile : ElfFile f)
    (hi : i < secCount f)
    (hsame : secType f i ≠ shtNobits → ∀ j k, j < k → k < secSize f i →
      secAddr f i + j = ehdr + (secOffset f i + k) →
        (sectionBytes f i)[j]? = (sectionBytes f i)[k]?) :
    fillSection M ehdr (ehdr + shdrOffset f i) =
      storeBytes M (secAddr f i) (sectionBytes f i) := by
  obtain ⟨hstype, hsaddr, hsoff, hssize⟩ := himage.section_header hi (hfile.table i hi)
  have hlen := length_sectionBytes hfile hi
  have hend := hfile.end_le hi
  rw [fillSection, hstype, hsaddr, hsoff, hssize]
  split_ifs with hnobits
  · rw [sectionBytes, if_pos hnobits]
  have hin := hfile.contents i hi hnobits
  have hplace : ∀ k < secSize f i, ehdr + (secOffset f i + k) < kheapStart := fun k hk =>
    himage.addr_lt (by omega)
  have hadd : add32 ehdr (secOffset f i) = ehdr + secOffset f i := by
    have hinside := himage.inside
    refine add32_of_lt ?_
    unfold kheapStart at hinside
    omega
  rw [hadd]
  nth_rewrite 1 [← hlen]
  refine memcpy_eq (fun k hk => ?_) fun j k hk hj he => ?_
  · rw [hlen] at hk
    have hlt := (hplace k hk).trans (show kheapStart < 2 ^ 32 by decide)
    rw [Nat.add_assoc, Nat.mod_eq_of_lt hlt, himage.bytes _ (by omega)
      (.inr ⟨i, le_rfl, hi, .inr (.inr (.inr ⟨hnobits, by omega, by omega⟩))⟩),
      ← sectionBytes_getElem? hnobits hk, List.getElem?_eq_getElem]
  · rw [hlen] at hk
    have hlt := hplace k hk
    have hframed := himage.framed (secOffset f i + k) (by omega)
    have hdst : secAddr f i + j < 2 ^ 32 := by
      unfold kheapStart at hend
      omega
    have hsrc : ehdr + (secOffset f i + k) < 2 ^ 32 := hlt.trans (by decide)
    rw [Nat.add_assoc, Nat.mod_eq_of_lt hsrc, Nat.mod_eq_of_lt hdst,
      walk_eq hlive hsrc hframed] at he
    have hvirt := byteAddr_injective hgood hlt hframed (walk_byteAddr hdst he)
    have hbytes := hsame hnobits j k hj hk hvirt.symm
    rw [List.getElem?_eq_getElem (by omega), List.getElem?_eq_getElem (by omega)] at hbytes
    exact Option.some.inj hbytes

theorem fillSection_overlap (hgood : Good M.space)
    (hlive : Live M.space) (himage : Image M ehdr f i) (hfile : ElfFile f)
    (hi : i < secCount f)
    (hframed : ∀ k < secSize f i, frameOf M.space ((secAddr f i + k) / 0x1000) ≠ 0)
    (hbits : secType f i ≠ shtNobits)
    (hrun : fillSection M ehdr (ehdr + shdrOffset f i) = some M') {j : ℕ} (hj : j < k)
    (hk : k < secSize f i) (he : secAddr f i + j = ehdr + (secOffset f i + k)) :
    loadByte M' (secAddr f i + k) = loadByte M' (secAddr f i + j) := by
  obtain ⟨hstype, hsaddr, hsoff, hssize⟩ := himage.section_header hi (hfile.table i hi)
  have hspace := fillSection_space hrun
  have hend := hfile.end_le hi
  have hlow : ∀ k < secSize f i, secAddr f i + k < kheapStart := fun k hk => by omega
  have hlt : ∀ k < secSize f i, secAddr f i + k < 2 ^ 32 := fun k hk =>
    (hlow k hk).trans (by decide)
  have hadd : add32 ehdr (secOffset f i) = ehdr + secOffset f i := by
    have hplace := hlt j (by omega)
    exact add32_of_lt (by omega)
  rw [fillSection, hstype, hsaddr, hsoff, hssize, if_neg hbits, hadd] at hrun
  have hwalk : ∀ k < secSize f i, walk M.space ((secAddr f i + k) % 2 ^ 32) =
      some (byteAddr M.space (secAddr f i + k)) := fun k hk => by
    rw [Nat.mod_eq_of_lt (hlt k hk), walk_eq hlive (hlt k hk) (hframed k hk)]
  have hinj : ∀ j < secSize f i, ∀ k < secSize f i, byteAddr M.space (secAddr f i + j) =
      byteAddr M.space (secAddr f i + k) → j = k := fun j hj k hk he => by
    have := byteAddr_injective hgood (hlow j hj) (hframed j hj) he
    omega
  have hsame := @memcpy_overlap M M' _ _ _ (fun k => byteAddr M.space (secAddr f i + k)) hwalk hrun
    hinj j k hj hk (by rw [Nat.add_assoc, ← he]; exact hwalk j (by omega))
  have hlive' : Live M'.space := hspace ▸ hlive
  have hframed' : ∀ k < secSize f i, frameOf M'.space ((secAddr f i + k) / 0x1000) ≠ 0 :=
    hspace ▸ hframed
  rw [loadByte_mapped hlive' (hlt k hk) (hframed' k hk),
    loadByte_mapped hlive' (hlt j (by omega)) (hframed' j (by omega)), hspace]
  exact congrArg some hsame

theorem bare_subset_wanted (hfile : ElfFile f)
    (hi : i < secCount f) (haddr : secAddr f i ≠ 0) (s : Space) :
    bare s (secPage f i) (secPages f i + 1) ⊆ wanted f s := by
  intro u hu
  obtain ⟨hin, hzero⟩ := mem_bare.mp hu
  have hpages := (hfile.user i hi haddr).2.2
  refine Finset.mem_filter.mpr ⟨Finset.mem_range.mpr ?_, hzero, i, hi, haddr, hin⟩
  unfold InRange at hin
  omega

theorem wanted_card (hfile : ElfFile f) (hi : i < secCount f) (haddr : secAddr f i ≠ 0)
    (hgiven : ∀ u, InRange (secPage f i) (secPages f i + 1) u → frameOf t u ≠ 0)
    (hothers : ∀ u, ¬ InRange (secPage f i) (secPages f i + 1) u → frameOf t u = frameOf s u) :
    (wanted f t).card + lacking s (secPage f i) (secPages f i + 1) ≤ (wanted f s).card := by
  have hdisjoint : Disjoint (wanted f t) (bare s (secPage f i) (secPages f i + 1)) := by
    refine Finset.disjoint_left.mpr fun u hu hbare => ?_
    exact hgiven u (mem_bare.mp hbare).1 (Finset.mem_filter.mp hu).2.1
  rw [← card_bare, ← Finset.card_union_of_disjoint hdisjoint]
  refine Finset.card_le_card (Finset.union_subset (fun u hu => ?_)
    (bare_subset_wanted hfile hi haddr s))
  obtain ⟨hlt, hzero, hin⟩ := Finset.mem_filter.mp hu
  refine Finset.mem_filter.mpr ⟨hlt, ?_, hin⟩
  rw [← hothers u fun hin => hgiven u hin hzero]
  exact hzero

structure Loading (f : Bytes) (ehdr : ℕ) (kmalloc : ℕ → ℕ) (M₀ : Machine) (n : ℕ) (M : Machine) :
    Prop where
  good : Good M.space
  live : Live M.space
  fresh : Fresh M.space kmalloc
  image : Image M ehdr f n
  plan : M.space.plan = planBefore f M₀.space.plan n
  framed : ∀ i < n, secAddr f i ≠ 0 → ∀ k < secSize f i,
    frameOf M.space ((secAddr f i + k) / 0x1000) ≠ 0
  memory : (wanted f M.space).card ≤ (freeFrames M.space.frames).card
  low : ∀ a < processImage, ∀ b, walk M.space a = some b → b = a
  loaded : Loaded f M₀ M n

theorem Space.plan_frame {x : Plan} (h : s.plan = x) (u : ℕ) :
    x.supply.frame u = frameOf s u := by
  rw [← h]
  rfl

section Round

variable {M₀ : Machine} {kmalloc : ℕ → ℕ} (h : Loading f ehdr kmalloc M₀ n M) (hfile : ElfFile f)
  (hn : n < secCount f)

include h hfile hn

theorem Loading.mapSection_eq (haddr : secAddr f n ≠ 0) :
    mapSection kmalloc M (ehdr + shdrOffset f n) =
      (doMmap kmalloc M.space (secAddr f n) (secSize f n + 0x2000)).map
        fun s => { M with space := s } := by
  obtain ⟨-, hsaddr, -, hssize⟩ := h.image.section_header hn (hfile.table n hn)
  obtain ⟨-, hz, hadd⟩ := hfile.range hn haddr
  rw [mapSection, hsaddr, hssize, hadd, if_neg haddr, if_neg hz]

theorem Loading.mapped (haddr : secAddr f n ≠ 0)
    (hcov : (planBefore f M₀.space.plan n).meets (secAddr f n) (secSize f n + 0x2000) = true →
      ∀ u, InRange (secPage f n) (secPages f n) u →
        (planBefore f M₀.space.plan n).supply.frame u ≠ 0) :
    ∃ t, mapSection kmalloc M (ehdr + shdrOffset f n) = some { M with space := t } ∧ Live t ∧
      Remapped M.space kmalloc (secPage f n) (secPages f n) t ∧
      t.plan = planBefore f M₀.space.plan (n + 1) ∧
      (∀ u, ¬ InRange (secPage f n) (secPages f n + 1) u → frameOf t u = frameOf M.space u) ∧
      ∀ u, frameOf M.space u ≠ 0 → frameOf t u ≠ 0 := by
  obtain ⟨hr, hz, -⟩ := hfile.range hn haddr
  have hroom : lacking M.space (secPage f n) (secPages f n + 1) ≤
      (freeFrames M.space.frames).card := by
    rw [← card_bare]
    exact (Finset.card_le_card (bare_subset_wanted hfile hn haddr M.space)).trans h.memory
  obtain ⟨t, hrun, ht, hplan⟩ := doMmap_plan hr hz h.good h.fresh
    (fun hmeets u hu => by
      rw [← Space.plan_frame h.plan]
      exact hcov (h.plan ▸ hmeets) u hu) hroom
  have hothers : ∀ u, ¬ InRange (secPage f n) (secPages f n + 1) u →
      frameOf t u = frameOf M.space u := fun u hu => by
    rw [← Space.plan_frame hplan, Plan.mmap_frame hu]
    rfl
  refine ⟨t, ?_, h.live.doMmap hrun, ht, ?_, hothers, fun u hu => ?_⟩
  · rw [h.mapSection_eq hfile hn haddr, hrun, Option.map_some]
  · rw [hplan, h.plan, planBefore, if_neg haddr]
  · by_cases hin : InRange (secPage f n) (secPages f n + 1) u
    · exact ht.given u hin
    · rwa [hothers u hin]

omit hfile hn in
theorem Loading.image_mapped (hlive : Live t)
    (hsettled : ∀ u, Carries f ehdr n u → frameOf t u = frameOf M.space u)
    (hframed : ∀ u, frameOf M.space u ≠ 0 → frameOf t u ≠ 0) :
    Image { M with space := t } ehdr f n := by
  refine ⟨h.image.above, h.image.inside, fun k hk => hframed _ (h.image.framed k hk),
    fun k hk hread => ?_⟩
  have hlt := (h.image.addr_lt hk).trans (show kheapStart < 2 ^ 32 by decide)
  rw [← h.image.bytes k hk hread, loadByte, loadByte, walk_settled h.live hlive hlt
    (h.image.framed k hk) (hsettled _ (.inr ⟨k, hk, hread, rfl⟩))]

theorem Loading.loadSection_eq :
    loadSection kmalloc M ehdr (ehdr + shdrOffset f n) =
      (mapSection kmalloc M (ehdr + shdrOffset f n)).bind fun M =>
        if readable M (ehdr + shdrOffset f n) 40 then
          fillSection M ehdr (ehdr + shdrOffset f n) else none := by
  rw [loadSection, if_pos (h.image.readable h.live (hfile.table n hn))]

theorem Loading.fill_unaddressed (haddr : secAddr f n = 0) :
    loadSection kmalloc M ehdr (ehdr + shdrOffset f n) = storeBytes M 0 (sectionBytes f n) := by
  obtain ⟨-, hsaddr, -, -⟩ := h.image.section_header hn (hfile.table n hn)
  have hmap : mapSection kmalloc M (ehdr + shdrOffset f n) = some M := by
    rw [mapSection, hsaddr, if_pos haddr]
  have hfill := fillSection_eq h.good h.live h.image hfile hn fun _ j k _ _ he => by
    have hsize := hfile.low n hn haddr
    have habove := h.image.above
    omega
  rw [h.loadSection_eq hfile hn, hmap, Option.bind_some,
    if_pos (h.image.readable h.live (hfile.table n hn)), hfill, haddr]

theorem Loading.step_unaddressed (haddr : secAddr f n = 0)
    (hplace : ∀ k < secSize f n, loadByte M₀ k = (sectionBytes f n)[k]?) :
    loadSection kmalloc M ehdr (ehdr + shdrOffset f n) = some M ∧
      RightRound f ehdr M₀ M M n ∧ Loading f ehdr kmalloc M₀ (n + 1) M := by
  have hlen := length_sectionBytes hfile hn
  have hlow := hfile.low n hn haddr
  have hfile' : ∀ k < f.length, ToRead f (n + 1) k → loadByte M (ehdr + k) = f[k]? :=
    fun k hk hread => h.image.bytes k hk hread.of_succ
  have hloaded : Loaded f M₀ M (n + 1) := by
    refine ⟨fun i hi hne => ?_, h.loaded.kernel⟩
    obtain hi | rfl := Nat.lt_succ_iff_lt_or_eq.mp hi
    · exact h.loaded.sections i hi hne
    · exact absurd haddr hne
  refine ⟨?_, ⟨fun hne => absurd haddr hne, fun _ _ => rfl, hfile', hloaded⟩, h.good, h.live,
    h.fresh, ⟨h.image.above, h.image.inside, h.image.framed, hfile'⟩, ?_, fun i hi hne => ?_,
    h.memory, h.low, hloaded⟩
  · rw [h.fill_unaddressed hfile hn haddr]
    refine storeBytes_same fun k hk => ?_
    have hlt : k < processImage := by omega
    have hlt' : k < 2 ^ 32 := hlt.trans (by decide)
    rw [Nat.zero_add, Nat.mod_eq_of_lt hlt', h.loaded.kernel k hlt' (.inl hlt), hplace k (by omega),
      List.getElem?_eq_getElem hk]
  · rw [h.plan, planBefore, if_pos haddr]
  · obtain hi | rfl := Nat.lt_succ_iff_lt_or_eq.mp hi
    · exact h.framed i hi hne
    · exact absurd haddr hne

omit hfile hn in
theorem Loading.file_filled (haddr : secAddr f n ≠ 0) (hl : Loadable f ehdr M₀ n)
    (himage : Image { M with space := t } ehdr f n) (hfilled : Filled f M t M' n) :
    ∀ k < f.length, ToRead f (n + 1) k → loadByte M' (ehdr + k) = f[k]? := by
  intro k hk hread
  have hlt := (h.image.addr_lt hk).trans (show kheapStart < 2 ^ 32 by decide)
  by_cases hin : secAddr f n ≤ ehdr + k ∧ ehdr + k < secAddr f n + secSize f n
  · obtain ⟨j, hj⟩ := Nat.exists_eq_add_of_le hin.1
    rw [← hl.agrees haddr j (by omega) k hk hj.symm (.inl hread), hj, hfilled.bytes j (by omega)]
  · rw [hfilled.outside _ hlt hin, himage.bytes k hk hread.of_succ]

theorem Loading.loaded_filled (haddr : secAddr f n ≠ 0) (hlive : Live t)
    (ht : Remapped M.space kmalloc (secPage f n) (secPages f n) t)
    (hsettled : ∀ u, Carries f ehdr n u → frameOf t u = frameOf M.space u)
    (hfilled : Filled f M t M' n) : Loaded f M₀ M' (n + 1) := by
  have hsame : ∀ virt < 2 ^ 32, ¬ (secAddr f n ≤ virt ∧ virt < secAddr f n + secSize f n) →
      walk t virt = walk M.space virt → loadByte M' virt = loadByte M virt := by
    intro virt hvirt hnot hwalk
    rw [hfilled.outside virt hvirt hnot, loadByte, loadByte, hwalk]
  refine ⟨fun i hi hne k hk => ?_, fun virt hvirt hkernel => ?_⟩
  · obtain hi | rfl := Nat.lt_succ_iff_lt_or_eq.mp hi
    · have hlt : secAddr f i + k < 2 ^ 32 := by
        have hend := hfile.end_le (show i < secCount f by omega)
        unfold kheapStart at hend
        omega
      have hapart := hfile.apart i (by omega) n hn (by omega) hne haddr
      rw [hsame _ hlt (by omega) (walk_settled h.live hlive hlt (h.framed i hi hne k hk)
        (hsettled _ (.inl ⟨i, hi, hne, k, hk, rfl⟩))), h.loaded.sections i hi hne k hk]
    · exact hfilled.bytes k hk
  · rw [hsame virt hvirt ?_ (ht.outside virt hvirt fun hin => ?_), h.loaded.kernel virt hvirt hkernel]
    · rintro ⟨hlow, hhigh⟩
      have huser := hfile.user n hn haddr
      omega
    · have huser := hfile.page_user hn haddr hin
      omega

theorem Loading.step_addressed (haddr : secAddr f n ≠ 0) (hl : Loadable f ehdr M₀ n) :
    ∃ M', loadSection kmalloc M ehdr (ehdr + shdrOffset f n) = some M' ∧
      RightRound f ehdr M₀ M M' n ∧ Loading f ehdr kmalloc M₀ (n + 1) M' := by
  obtain ⟨t, hmap, htlive, ht, hplan, hothers, hkept⟩ := h.mapped hfile hn haddr (hl.covered haddr)
  have hsettled : ∀ u, Carries f ehdr n u → frameOf t u = frameOf M.space u := fun u hu => by
    rw [← Space.plan_frame hplan, ← Space.plan_frame h.plan, hl.settled u hu]
  have himage := h.image_mapped htlive hsettled hkept
  have hframed : ∀ k < secSize f n, frameOf t ((secAddr f n + k) / 0x1000) ≠ 0 := fun k hk =>
    ht.given _ (hfile.section_page hn haddr hk)
  have hfill := fillSection_eq ht.good htlive himage hfile hn fun hbits j k hj hk he => by
    have hin := hfile.contents n hn hbits
    rw [hl.agrees haddr j (by omega) _ (by omega) he (.inr ⟨hbits, k, hj, hk, rfl⟩),
      sectionBytes_getElem? hbits hk]
  obtain ⟨M', hstore, hfilled⟩ := store_section M hfile hn ht.good htlive hframed
  obtain rfl := hfilled.space
  have hfile' := h.file_filled haddr hl himage hfilled
  have hloaded := h.loaded_filled hfile hn haddr htlive ht hsettled hfilled
  refine ⟨M', ?_, ⟨fun _ => ht.given, hsettled, hfile', hloaded⟩, ht.good, htlive, ht.fresh,
    ⟨h.image.above, h.image.inside, himage.framed, hfile'⟩, hplan, fun i hi hne k hk => ?_, ?_,
    fun a ha b hb => ?_, hloaded⟩
  · rw [h.loadSection_eq hfile hn, hmap, Option.bind_some,
      if_pos (himage.readable htlive (hfile.table n hn)), hfill, hstore]
  · obtain hi | rfl := Nat.lt_succ_iff_lt_or_eq.mp hi
    · exact hkept _ (h.framed i hi hne k hk)
    · exact hframed k hk
  · have hcard := wanted_card hfile hn haddr ht.given hothers
    have hspent := ht.spent
    have hmemory := h.memory
    omega
  · rw [ht.outside a (ha.trans (by decide)) fun hin => ?_] at hb
    · exact h.low a ha b hb
    · have huser := hfile.page_user hn haddr hin
      omega

theorem Loading.loadable_unaddressed (haddr : secAddr f n = 0)
    (hrun : loadSection kmalloc M ehdr (ehdr + shdrOffset f n) = some M')
    (hright : RightRound f ehdr M₀ M M' n) :
    ∀ k < secSize f n, loadByte M₀ k = (sectionBytes f n)[k]? := by
  intro k hk
  have hlen := length_sectionBytes hfile hn
  have hlow := hfile.low n hn haddr
  rw [h.fill_unaddressed hfile hn haddr] at hrun
  have hplace : ∀ j < (sectionBytes f n).length, walk M.space ((0 + j) % 2 ^ 32) = some j := by
    intro j hj
    obtain ⟨a, ha⟩ := storeBytes_walk hrun hj
    have hlt : j < processImage := by omega
    rw [Nat.zero_add, Nat.mod_eq_of_lt (hlt.trans (by decide))] at ha ⊢
    rw [ha, h.low j hlt a ha]
  obtain ⟨M₁, hrun', hspace, hbytes, -⟩ := storeBytes_spec M 0 id hplace fun _ _ _ _ he => he
  obtain rfl := Option.some.inj (hrun.symm.trans hrun')
  have hlt : k < processImage := by omega
  have hlt' : k < 2 ^ 32 := hlt.trans (by decide)
  have hwalk := hplace k (by omega)
  rw [Nat.zero_add, Nat.mod_eq_of_lt hlt'] at hwalk
  rw [← hright.loaded.kernel k hlt' (.inl hlt), loadByte, hspace, hwalk, Option.map_some,
    List.getElem?_eq_getElem (by omega)]
  exact congrArg some (hbytes k (by omega))

theorem Loading.loadable_addressed (haddr : secAddr f n ≠ 0)
    (hrun : loadSection kmalloc M ehdr (ehdr + shdrOffset f n) = some M')
    (hright : RightRound f ehdr M₀ M M' n) : Loadable f ehdr M₀ n := by
  have htable := hfile.table n hn
  have hlen := length_sectionBytes hfile hn
  obtain ⟨hr, hz, -⟩ := hfile.range hn haddr
  rw [h.loadSection_eq hfile hn] at hrun
  obtain ⟨M₁, hmap, hrun⟩ := Option.bind_eq_some_iff.mp hrun
  split_ifs at hrun
  have hspace := fillSection_space hrun
  have hcov : (planBefore f M₀.space.plan n).meets (secAddr f n) (secSize f n + 0x2000) = true →
      ∀ u, InRange (secPage f n) (secPages f n) u →
        (planBefore f M₀.space.plan n).supply.frame u ≠ 0 := by
    intro hmeets u hu hbare
    rw [h.mapSection_eq hfile hn haddr] at hmap
    obtain ⟨t, hmmap, rfl⟩ := Option.map_eq_some_iff.mp hmap
    rw [← h.plan] at hmeets
    rw [Space.plan_frame h.plan] at hbare
    refine hright.mapped haddr (secPage f n) ⟨le_rfl, by omega⟩ ?_
    rw [hspace]
    exact doMmap_meets_bare hr hz h.good h.fresh hmeets hu hbare hmmap
  obtain ⟨t, hmap', htlive, ht, hplan, -, hkept⟩ := h.mapped hfile hn haddr hcov
  obtain rfl := Option.some.inj (hmap.symm.trans hmap')
  have hspace' : M'.space = t := hspace
  have hsettled : ∀ u, Carries f ehdr n u → frameOf t u = frameOf M.space u := fun u hu =>
    hspace' ▸ hright.settled u hu
  have himage := h.image_mapped htlive hsettled hkept
  have hbytes := hright.loaded.sections n (Nat.lt_succ_self n) haddr
  refine ⟨fun hzero => absurd hzero haddr, fun _ => hcov, fun u hu => ?_,
    fun _ j hj k hk he hread => ?_⟩
  · rw [Space.plan_frame hplan, Space.plan_frame h.plan, hsettled u hu]
  rcases hread with hread | ⟨hbits, i, hi, hlast, rfl⟩
  · rw [← hbytes j hj, he, hright.file k hk hread]
  · have hsame := fillSection_overlap ht.good htlive himage hfile hn
      (fun k hk => ht.given _ (hfile.section_page hn haddr hk)) hbits hrun hi hlast he
    rw [← sectionBytes_getElem? hbits hlast, ← hbytes j hj, ← hsame, hbytes i hlast]

theorem Loading.header_addr :
    add32 ehdr (add32 (eShoff (view M) ehdr) (n * eShentsize (view M) ehdr)) =
      ehdr + shdrOffset f n := by
  have htable := hfile.table n hn
  have hin := h.image.inside
  unfold kheapStart at hin
  unfold shdrOffset at *
  have hinner := add32_of_lt (show eShoff (fileBytes f) 0 + n * eShentsize (fileBytes f) 0 < 2 ^ 32
    by omega)
  rw [h.image.shoff hfile.header hn, (h.image.header hfile.header).1, hinner,
    add32_of_lt (by omega)]

theorem Loading.step (hl : Loadable f ehdr M₀ n) :
    ∃ M', loadSection kmalloc M ehdr
        (add32 ehdr (add32 (eShoff (view M) ehdr) (n * eShentsize (view M) ehdr))) = some M' ∧
      RightRound f ehdr M₀ M M' n ∧ Loading f ehdr kmalloc M₀ (n + 1) M' := by
  rw [h.header_addr hfile hn]
  by_cases haddr : secAddr f n = 0
  · exact ⟨M, h.step_unaddressed hfile hn haddr (hl.unaddressed haddr)⟩
  · exact h.step_addressed hfile hn haddr hl

theorem Loading.loadable (hrun : loadSection kmalloc M ehdr
      (add32 ehdr (add32 (eShoff (view M) ehdr) (n * eShentsize (view M) ehdr))) = some M')
    (hright : RightRound f ehdr M₀ M M' n) : Loadable f ehdr M₀ n := by
  rw [h.header_addr hfile hn] at hrun
  by_cases haddr : secAddr f n = 0
  · refine ⟨fun _ => h.loadable_unaddressed hfile hn haddr hrun hright,
      fun hne => absurd haddr hne, fun u _ => ?_, fun hne => absurd haddr hne⟩
    rw [planBefore, if_pos haddr]
  · exact h.loadable_addressed hfile hn haddr hrun hright

end Round

section Loop

variable {M₀ : Machine} {kmalloc : ℕ → ℕ}

theorem loadFirst_loading (h : Loading f ehdr kmalloc M₀ 0 M₀) (hfile : ElfFile f)
    (hl : ∀ i < n, Loadable f ehdr M₀ i) (hn : n ≤ secCount f) :
    ∃ M, loadFirst kmalloc ehdr M₀ n = some M ∧ Loading f ehdr kmalloc M₀ n M := by
  induction n with
  | zero => exact ⟨M₀, rfl, h⟩
  | succ n ih =>
    obtain ⟨M, hrun, hM⟩ := ih (fun i hi => hl i (by omega)) (by omega)
    obtain ⟨M', hnext, -, hM'⟩ := hM.step hfile (by omega) (hl n (Nat.lt_succ_self n))
    exact ⟨M', by rw [loadFirst, hrun, Option.bind_some, hnext], hM'⟩

theorem eShentsize_mul_lt (m : Memory) (a : ℕ) : eShentsize m a * eShnum m a < 2 ^ 32 :=
  calc eShentsize m a * eShnum m a ≤ 2 ^ 16 * eShnum m a :=
        Nat.mul_le_mul_right _ (load16_lt m _).le
    _ < 2 ^ 16 * 2 ^ 16 := Nat.mul_lt_mul_of_pos_left (load16_lt m _) (by decide)
    _ = 2 ^ 32 := by decide

theorem loadLoop_eq (hfile : ElfFile f)
    (hall : ∀ n ≤ secCount f, ∃ M, loadFirst kmalloc ehdr M₀ n = some M ∧
      Loading f ehdr kmalloc M₀ n M) {fuel : ℕ} (hn : n ≤ secCount f)
    (hrun : loadFirst kmalloc ehdr M₀ n = some M) (hfuel : secCount f - n < fuel) :
    loadLoop kmalloc ehdr M (n * eShentsize (fileBytes f) 0) fuel =
      loadFirst kmalloc ehdr M₀ (secCount f) := by
  have hpos := hfile.entsize
  have hmax : eShentsize (fileBytes f) 0 * secCount f < 2 ^ 32 := eShentsize_mul_lt (fileBytes f) 0
  induction fuel generalizing n M with
  | zero => omega
  | succ fuel ih =>
    obtain ⟨M₁, hrun₁, hM⟩ := hall n hn
    obtain rfl := Option.some.inj (hrun.symm.trans hrun₁)
    obtain ⟨hsize, hnum⟩ := hM.image.header hfile.header
    have hheader : 0 + 52 ≤ f.length := by
      rw [Nat.zero_add]
      exact hfile.header
    have hread : readable M ehdr 52 = true := hM.image.readable hM.live hheader
    rw [loadLoop, if_pos hread, hsize, hnum]
    by_cases hmore : n < secCount f
    · obtain ⟨M', hnext, hM'⟩ := hall (n + 1) hmore
      have hlt : n * eShentsize (fileBytes f) 0 <
          eShentsize (fileBytes f) 0 * secCount f := by
        rw [Nat.mul_comm]
        exact Nat.mul_lt_mul_of_pos_left hmore hpos
      have hle : (n + 1) * eShentsize (fileBytes f) 0 ≤
          eShentsize (fileBytes f) 0 * secCount f := by
        rw [Nat.mul_comm]
        exact Nat.mul_le_mul_left _ hmore
      have hsucc : add32 (n * eShentsize (fileBytes f) 0) (eShentsize (fileBytes f) 0) =
          (n + 1) * eShentsize (fileBytes f) 0 := by
        rw [Nat.add_mul, Nat.one_mul] at hle ⊢
        exact add32_of_lt (by omega)
      have hround := hnext
      rw [loadFirst, hrun, Option.bind_some, hsize] at hround
      rw [if_pos hlt, hround, Option.bind_some, (hM'.image.header hfile.header).1, hsucc]
      exact ih hmore hnext (by omega)
    · have hdone : n = secCount f := by omega
      rw [if_neg (by rw [hdone, Nat.mul_comm]; omega), ← hrun, hdone]

end Loop

def smallSection (addr offset : ℕ) : Bytes :=
  toLE 4 0 ++ toLE 4 1 ++ toLE 4 0 ++ toLE 4 addr ++ toLE 4 offset ++ toLE 4 2 ++ toLE 4 0 ++
    toLE 4 0 ++ toLE 4 0 ++ toLE 4 0

def smallElf (addrs : List ℕ) : Bytes :=
  [0x7f, 0x45, 0x4c, 0x46, 1, 1, 1, 0, 0, 0, 0, 0, 0, 0, 0, 0, 2, 0, 3, 0, 1, 0, 0, 0] ++
    toLE 4 0 ++ toLE 4 0 ++ toLE 4 52 ++ toLE 4 0 ++ toLE 2 52 ++ toLE 2 0 ++ toLE 2 0 ++
    toLE 2 40 ++ toLE 2 addrs.length ++ toLE 2 0 ++
    (addrs.zipIdx.flatMap fun (addr, i) => smallSection addr (52 + 40 * addrs.length + 2 * i)) ++
    addrs.flatMap fun _ => [7, 9]

def stagedMachine (addrs : List ℕ) : Machine :=
  ⟨stackProcess.machine.space, fun a => (smallElf addrs).getD (a - 0x1000) 0⟩

theorem staged_image (hlive : Live s) (hlen : f.length < 0x1000)
    (hframe : frameOf s (ustackBottom / pageSize) = 1) :
    Image ⟨s, fun a => f.getD (a - 0x1000) 0⟩ ustackBottom f 0 := by
  have hpage : ∀ k < f.length, frameOf s ((ustackBottom + k) / 0x1000) = 1 := by
    intro k hk
    rw [← hframe, show (ustackBottom + k) / 0x1000 = ustackBottom / pageSize by
      unfold ustackBottom pageSize
      omega]
  refine ⟨by decide, ?_, fun k hk => ?_, fun k hk _ => ?_⟩
  · unfold ustackBottom kheapStart
    omega
  · rw [hpage k hk]
    decide
  · have hlt : ustackBottom + k < 2 ^ 32 := by
      unfold ustackBottom
      omega
    have hplace : byteAddr s (ustackBottom + k) - 0x1000 = k := by
      rw [byteAddr, hpage k hk, frameByte]
      unfold ustackBottom
      omega
    rw [loadByte_mapped hlive hlt (by rw [hpage k hk]; decide)]
    change some (f.getD (byteAddr s (ustackBottom + k) - 0x1000) 0) = f[k]?
    rw [hplace, List.getD_eq_getElem?_getD, List.getElem?_eq_getElem hk, Option.getD_some]

def sharedElf : Bytes := smallElf [0x20000010, 0x20000014]

theorem sharedElf_sections : secCount sharedElf = 2 ∧ sharedElf.length = 136 ∧
    ∀ i < 2, secAddr sharedElf i = 0x20000010 + 4 * i ∧ secSize sharedElf i = 2 ∧
      secPage sharedElf i = 0x20000 ∧ secPages sharedElf i = 3 := by
  decide +kernel

theorem sharedElf_file : ElfFile sharedElf := by
  obtain ⟨hnum, -, hsections⟩ := sharedElf_sections
  refine ⟨?_, ?_, ?_, ?_, ?_, ?_, fun i hi j hj hne _ _ => ?_⟩
  case refine_7 =>
    have hsi := hsections i (by omega)
    have hsj := hsections j (by omega)
    omega
  all_goals decide +kernel

theorem unaddressedElf_file : ElfFile (smallElf [0]) := by
  have hnum : secCount (smallElf [0]) = 1 := by decide +kernel
  refine ⟨?_, ?_, ?_, ?_, ?_, ?_, fun i hi j hj hne => by omega⟩ <;> decide +kernel

theorem stackProcess_low : ∀ a < processImage, ∀ b, walk stackProcess.machine.space a = some b →
    b = a := by
  have hnone : ∀ i < 128, stackProcess.machine.space.tabls i = none := by decide +kernel
  intro a ha b hb
  rw [walk, hnone _ (by unfold processImage at ha; unfold pageDirectoryIndex; omega)] at hb
  cases hb

theorem sharedElf_wanted : (wanted sharedElf stackProcess.machine.space).card ≤
    (freeFrames stackProcess.machine.space.frames).card := by
  obtain ⟨hnum, -, hsections⟩ := sharedElf_sections
  have hsubset : wanted sharedElf stackProcess.machine.space ⊆ Finset.Ico 0x20000 0x20004 := by
    intro u hu
    obtain ⟨-, -, i, hi, -, hin⟩ := Finset.mem_filter.mp hu
    obtain ⟨-, -, hpage, hpages⟩ := hsections i (by omega)
    rw [hpage, hpages] at hin
    exact Finset.mem_Ico.mpr hin
  rw [stackProcess_free]
  exact (Finset.card_le_card hsubset).trans (by decide)

theorem sharedElf_carries {u : ℕ} (hi : i < 2) (h : Carries sharedElf ustackBottom i u) :
    i = 1 ∧ u = 0x20000 ∨ u = 0x30000 := by
  obtain ⟨-, hlen, hsections⟩ := sharedElf_sections
  rcases h with ⟨j, hj, -, k, hk, rfl⟩ | ⟨k, hk, -, rfl⟩
  · obtain ⟨haddr, hsize, -⟩ := hsections j (by omega)
    omega
  · unfold ustackBottom
    omega

theorem sharedElf_loadable (hi : i < 2) :
    Loadable sharedElf ustackBottom (stagedMachine [0x20000010, 0x20000014]) i := by
  obtain ⟨-, hlen, hsections⟩ := sharedElf_sections
  obtain ⟨haddr, hsize, hpage, hpages⟩ := hsections i hi
  have hne : secAddr sharedElf i ≠ 0 := by omega
  refine ⟨fun hzero => absurd hzero hne, fun _ => ?_, fun u hu => ?_, fun _ j hj k hk he => ?_⟩
  · -- the stack lies elsewhere; the area of the first section meets the second range
    intro hmeets u hu
    rw [hpage, hpages] at hu
    obtain ⟨k, rfl⟩ := Nat.exists_eq_add_of_le hu.1
    have hall : ∀ i < 2, (planBefore sharedElf stackProcess.machine.space.plan i).meets
        (secAddr sharedElf i) (secSize sharedElf i + 0x2000) = true → ∀ k < 3,
          (planBefore sharedElf stackProcess.machine.space.plan i).supply.frame (0x20000 + k) ≠ 0 := by
      decide +kernel
    exact hall i hi hmeets k (Nat.lt_of_add_lt_add_left hu.2)
  · obtain ⟨rfl, rfl⟩ | rfl := sharedElf_carries hi hu
    · decide +kernel
    · rw [planBefore, if_neg hne]
      refine Plan.mmap_frame fun hin => ?_
      change InRange (secPage sharedElf i) (secPages sharedElf i + 1) 0x30000 at hin
      rw [hpage, hpages] at hin
      unfold InRange at hin
      omega
  · unfold ustackBottom at he
    omega

/-- `stackProcess` with the first page of physical memory mapped at address zero,
and the file in its stack page. -/
def kernelMachine (addrs : List ℕ) : Machine :=
  ⟨writePage (getPage id stackProcess.machine.space 0 true).2 ⟨0, 0⟩
    { Page.zero with present := true }, fun a => (smallElf addrs).getD (a - 0x1000) 0⟩

theorem kernelMachine_good (addrs : List ℕ) :
    Good (kernelMachine addrs).space ∧ Live (kernelMachine addrs).space ∧
      Fresh (kernelMachine addrs).space id ∧
      frameOf (kernelMachine addrs).space (ustackBottom / pageSize) = 1 := by
  obtain ⟨t, s, hget, hslot, hgood, hfresh, hframes, -, hframe⟩ :=
    getPage_make (v := 0) stackProcess_mapped.2.good stackProcess_mapped.2.fresh (by decide)
  have hlive := stackProcess_live.getPage id 0 true
  have hnone : stackProcess.machine.space.tabls 0 = none := by decide +kernel
  have hspace : (getPage id stackProcess.machine.space 0 true).2 = s := congrArg Prod.snd hget
  have hslot₀ : s.tabls 0 = some 0 := by
    rw [← hspace]
    simp only [getPage, show pageDirectoryIndex 0 = 0 by decide, hnone, if_true, id,
      Function.update_self]
  obtain rfl : 0 = t := Option.some.inj (hslot₀.symm.trans hslot)
  rw [hspace] at hlive
  have hbare : (readPage s ⟨0, 0⟩).addr = 0 := by
    rw [← frameOf_eq_addr (v := 0) hslot, hframe]
    decide +kernel
  simp only [kernelMachine, hspace]
  refine ⟨hgood.write (v := 0) hslot rfl hgood.zero (fun g hg => ?_) ?_ fun h0 => absurd rfl h0,
    hlive.write _ _ fun h0 => absurd rfl h0,
    hfresh.of_tables (writePage_tabls _ _ _) (writePage_isSome _ _ _), ?_⟩
  · rw [Nat.zero_mod, hbare]
    simp [hg, Page.zero]
  · exact Nat.zero_lt_of_lt (hgood.managed 0 (Nat.zero_le _))
  · refine (frameOf_writePage (v := 0) hgood.toShaped hslot s.frames _ _).trans ?_
    rw [if_neg (by decide), hframe]
    exact stackProcess_frameOf

end Bingos.Mmap
