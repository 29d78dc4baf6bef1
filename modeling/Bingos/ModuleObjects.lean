import Bingos.ModuleModel

set_option autoImplicit false

/-! Well-formed relocatable objects in memory, and what reading them relies on. -/
namespace Bingos.Modules

open CStrings ByteMemory StringMaps

section Fields

variable (m : Memory) (ehdr : ℕ)

def sec (i : ℕ) : ℕ := shdrAt m ehdr (i * 40)

def HasBytes (i : ℕ) : Prop := shType m (sec m ehdr i) ≠ 0 ∧ shType m (sec m ehdr i) ≠ shtNobits

def TableType (t : ℕ) : Prop := t = shtSymtab ∨ t = shtStrtab ∨ t = shtRel

instance (i : ℕ) : Decidable (HasBytes m ehdr i) := inferInstanceAs (Decidable (_ ∧ _))

instance (t : ℕ) : Decidable (TableType t) := inferInstanceAs (Decidable (_ ∨ _ ∨ _))

variable (symtab strtab : ℕ)

def symbolCount : ℕ := shSize m (sec m ehdr symtab) / 16

def symAt (j : ℕ) : ℕ := ehdr + shOffset m (sec m ehdr symtab) + 16 * j

def symName (j : ℕ) : Bytes :=
  nameAt m (ehdr + shOffset m (sec m ehdr strtab) + stName m (symAt m ehdr symtab j))

def IsGlobal (j : ℕ) : Prop := elf32StBind (stInfo m (symAt m ehdr symtab j)) = stbGlobal

def IsSection (j : ℕ) : Prop := elf32StType (stInfo m (symAt m ehdr symtab j)) = sttSection

instance (j : ℕ) : Decidable (IsGlobal m ehdr symtab j) := inferInstanceAs (Decidable (_ = _))

instance (j : ℕ) : Decidable (IsSection m ehdr symtab j) := inferInstanceAs (Decidable (_ = _))

def relAt (i k : ℕ) : ℕ := ehdr + shOffset m (sec m ehdr i) + 8 * k

/-- The whole `r_info` of an entry, with the 32 bits the format gives it. -/
def fullInfo (i k : ℕ) : ℕ := load32 m (relAt m ehdr i k + 4)

def target (i : ℕ) : ℕ := shInfo m (sec m ehdr i)

def place (i k : ℕ) : ℕ :=
  ehdr + shOffset m (sec m ehdr (target m ehdr i)) + rOffset m (relAt m ehdr i k)

end Fields

/-- A relocatable object of `length` bytes at `ehdr`, with its symbol table in section `symtab`
and the names in section `strtab`: sections do not overlap the headers, and names end inside the
string table. -/
structure LaidOut (m : Memory) (ehdr length symtab strtab : ℕ) : Prop where
  check : elfEhdrCheck m ehdr = true
  nonnull : 0 < ehdr
  fits : ehdr + length < 2 ^ 32
  shentsize : eShentsize m ehdr = 40
  headers_start : 52 ≤ eShoff m ehdr
  headers_end : eShoff m ehdr + 40 * eShnum m ehdr ≤ length
  shnum_le : eShnum m ehdr ≤ 0xff00
  shstrndx : eShstrndx m ehdr < eShnum m ehdr
  shstrtab : shType m (sec m ehdr (eShstrndx m ehdr)) = shtStrtab ∧
    0 < shSize m (sec m ehdr (eShstrndx m ehdr))
  inside : ∀ i < eShnum m ehdr, HasBytes m ehdr i →
    52 ≤ shOffset m (sec m ehdr i) ∧
      shOffset m (sec m ehdr i) + shSize m (sec m ehdr i) ≤ length ∧
      (shOffset m (sec m ehdr i) + shSize m (sec m ehdr i) ≤ eShoff m ehdr ∨
        eShoff m ehdr + 40 * eShnum m ehdr ≤ shOffset m (sec m ehdr i))
  symtab_lt : symtab < eShnum m ehdr
  symtab_iff : ∀ i < eShnum m ehdr, shType m (sec m ehdr i) = shtSymtab ↔ i = symtab
  symtab_size : shSize m (sec m ehdr symtab) % 16 = 0
  strtab_lt : strtab < eShnum m ehdr
  strtab_iff : ∀ i < eShnum m ehdr,
    isStrtab m (findShstrtab m ehdr) (sec m ehdr i) = true ↔ i = strtab
  strtab_end : 0 < shSize m (sec m ehdr strtab) ∧
    load8 m (ehdr + shOffset m (sec m ehdr strtab) + (shSize m (sec m ehdr strtab) - 1)) = 0
  name_lt : ∀ j < symbolCount m ehdr symtab,
    stName m (symAt m ehdr symtab j) < shSize m (sec m ehdr strtab)

/-- Sections do not overlap each other, global symbols have distinct names, and relocations are of
the two types, against section or global symbols, and for words that do not overlap. -/
structure WellFormed (m : Memory) (ehdr length symtab strtab : ℕ) : Prop
    extends LaidOut m ehdr length symtab strtab where
  apart : ∀ i < eShnum m ehdr, ∀ j < eShnum m ehdr, i ≠ j → HasBytes m ehdr i → HasBytes m ehdr j →
    shOffset m (sec m ehdr i) + shSize m (sec m ehdr i) ≤ shOffset m (sec m ehdr j) ∨
      shOffset m (sec m ehdr j) + shSize m (sec m ehdr j) ≤ shOffset m (sec m ehdr i)
  strtab_link : shLink m (sec m ehdr symtab) = strtab
  global_named : ∀ j < symbolCount m ehdr symtab, IsGlobal m ehdr symtab j →
    stName m (symAt m ehdr symtab j) ≠ 0
  global_distinct : ∀ i < symbolCount m ehdr symtab, ∀ j < symbolCount m ehdr symtab, i ≠ j →
    IsGlobal m ehdr symtab i → IsGlobal m ehdr symtab j →
      symName m ehdr symtab strtab i ≠ symName m ehdr symtab strtab j
  section_index : ∀ j < symbolCount m ehdr symtab, IsSection m ehdr symtab j →
    stShndx m (symAt m ehdr symtab j) < eShnum m ehdr ∧ stValue m (symAt m ehdr symtab j) = 0
  rel_section : ∀ i < eShnum m ehdr, shType m (sec m ehdr i) = shtRel →
    shSize m (sec m ehdr i) % 8 = 0 ∧ target m ehdr i < eShnum m ehdr ∧
      HasBytes m ehdr (target m ehdr i) ∧ ¬ TableType (shType m (sec m ehdr (target m ehdr i)))
  rel_entry : ∀ i < eShnum m ehdr, shType m (sec m ehdr i) = shtRel →
    ∀ k < shSize m (sec m ehdr i) / 8,
      rOffset m (relAt m ehdr i k) + 4 ≤ shSize m (sec m ehdr (target m ehdr i)) ∧
      (elf32RType (fullInfo m ehdr i k) = 1 ∨ elf32RType (fullInfo m ehdr i k) = 2) ∧
      elf32RSym (fullInfo m ehdr i k) < symbolCount m ehdr symtab ∧
      (IsSection m ehdr symtab (elf32RSym (fullInfo m ehdr i k)) ∨
        IsGlobal m ehdr symtab (elf32RSym (fullInfo m ehdr i k)))
  places_apart : ∀ i < eShnum m ehdr, shType m (sec m ehdr i) = shtRel →
    ∀ k < shSize m (sec m ehdr i) / 8, ∀ i' < eShnum m ehdr, shType m (sec m ehdr i') = shtRel →
    ∀ k' < shSize m (sec m ehdr i') / 8, (i, k) ≠ (i', k') →
      place m ehdr i k + 4 ≤ place m ehdr i' k' ∨ place m ehdr i' k' + 4 ≤ place m ehdr i k

def Frozen (m : Memory) (ehdr o : ℕ) : Prop :=
  o < 52 ∨ (eShoff m ehdr ≤ o ∧ o < eShoff m ehdr + 40 * eShnum m ehdr) ∨
    ∃ i < eShnum m ehdr, TableType (shType m (sec m ehdr i)) ∧
      shOffset m (sec m ehdr i) ≤ o ∧ o < shOffset m (sec m ehdr i) + shSize m (sec m ehdr i)

def AddrField (m : Memory) (ehdr i o : ℕ) : Prop :=
  eShoff m ehdr + 40 * i + 12 ≤ o ∧ o < eShoff m ehdr + 40 * i + 16

def Unchanged (m : Memory) (ehdr : ℕ) (mem : Memory) : Prop :=
  ∀ o, Frozen m ehdr o → (∀ i < eShnum m ehdr, ¬ AddrField m ehdr i o) →
    mem (ehdr + o) = m (ehdr + o)

variable {f i n o : ℕ}

section Reads

variable {m mem : Memory} {ehdr length symtab strtab : ℕ}

theorem TableType.hasBytes (h : TableType (shType m (sec m ehdr i))) :
    HasBytes m ehdr i := by
  rcases h with h | h | h <;> exact ⟨by rw [h]; decide, by rw [h]; decide⟩

theorem load8_congr {a : ℕ} (h : load mem a 1 = load m a 1) : load8 mem a = load8 m a := by
  have hbyte : mem (a % 2 ^ 32) = m (a % 2 ^ 32) := by simpa [load] using h
  rw [load8, load8, hbyte]

variable (hw : LaidOut m ehdr length symtab strtab)
include hw

theorem LaidOut.frozen_lt (h : Frozen m ehdr o) : o < length := by
  have hstart := hw.headers_start
  have hend := hw.headers_end
  rcases h with h | h | ⟨i, hi, ht, h⟩
  · omega
  · omega
  · have hinside := (hw.inside i hi ht.hasBytes).2.1
    omega

theorem LaidOut.symtab_type : shType m (sec m ehdr symtab) = shtSymtab :=
  (hw.symtab_iff symtab hw.symtab_lt).mpr rfl

theorem LaidOut.strtab_type : shType m (sec m ehdr strtab) = shtStrtab := by
  have hstrtab := (hw.strtab_iff strtab hw.strtab_lt).mpr rfl
  simp only [isStrtab, Bool.and_eq_true, beq_iff_eq] at hstrtab
  exact hstrtab.1

variable (hk : Unchanged m ehdr mem)
include hk

theorem Unchanged.load_eq
    (h : ∀ t < n, Frozen m ehdr (o + t) ∧ ∀ i < eShnum m ehdr, ¬ AddrField m ehdr i (o + t)) :
    load mem (ehdr + o) n = load m (ehdr + o) n := by
  have hfits := hw.fits
  refine List.map_congr_left fun t ht => ?_
  obtain ⟨hfrozen, hfield⟩ := h t (List.mem_range.mp ht)
  have hlt := hw.frozen_lt hfrozen
  rw [Nat.mod_eq_of_lt (by omega), Nat.add_assoc]
  exact hk _ hfrozen hfield

theorem Unchanged.load_header (h : o + n ≤ 52) :
    load mem (ehdr + o) n = load m (ehdr + o) n := by
  have hstart := hw.headers_start
  refine hk.load_eq hw fun t ht => ⟨Or.inl (by omega), fun i _ hfield => ?_⟩
  rw [AddrField] at hfield
  omega

theorem Unchanged.load_field (hi : i < eShnum m ehdr) (h : f + n ≤ 12 ∨ 16 ≤ f ∧ f + n ≤ 40) :
    load mem (sec m ehdr i + f) n = load m (sec m ehdr i + f) n := by
  have hsec : sec m ehdr i + f = ehdr + (eShoff m ehdr + 40 * i + f) := by
    rw [sec, shdrAt]
    omega
  rw [hsec]
  refine hk.load_eq hw fun t ht => ⟨Or.inr (Or.inl (by omega)), fun j _ hfield => ?_⟩
  rw [AddrField] at hfield
  omega

theorem Unchanged.load_table (hi : i < eShnum m ehdr)
    (ht : TableType (shType m (sec m ehdr i))) (h : o + n ≤ shSize m (sec m ehdr i)) :
    load mem (ehdr + shOffset m (sec m ehdr i) + o) n =
      load m (ehdr + shOffset m (sec m ehdr i) + o) n := by
  have hinside := hw.inside i hi ht.hasBytes
  rw [Nat.add_assoc]
  refine hk.load_eq hw fun t htn => ⟨Or.inr (Or.inr ⟨i, hi, ht, by omega, by omega⟩),
    fun j hj hfield => ?_⟩
  rw [AddrField] at hfield
  omega

theorem Unchanged.eShoff : eShoff mem ehdr = Modules.eShoff m ehdr := by
  rw [Modules.eShoff, Modules.eShoff, load32, load32, hk.load_header hw (by decide)]

theorem Unchanged.eShentsize : eShentsize mem ehdr = 40 := by
  rw [Modules.eShentsize, load16, hk.load_header hw (by decide)]
  exact hw.shentsize

theorem Unchanged.eShnum : eShnum mem ehdr = Modules.eShnum m ehdr := by
  rw [Modules.eShnum, Modules.eShnum, load16, load16, hk.load_header hw (by decide)]

theorem Unchanged.shdrAt (x : ℕ) : shdrAt mem ehdr x = Modules.shdrAt m ehdr x := by
  rw [Modules.shdrAt, Modules.shdrAt, hk.eShoff hw]

theorem Unchanged.shdrs_getElem (i : ℕ) :
    (shdrs mem ehdr)[i]? = if i < Modules.eShnum m ehdr then some (sec m ehdr i) else none := by
  rw [shdrs, hk.eShentsize hw, if_neg (by decide), hk.eShnum hw, List.getElem?_map]
  split_ifs with hi
  · rw [List.getElem?_range hi, Option.map_some, hk.shdrAt hw, sec]
  · rw [List.getElem?_eq_none (by simpa using hi), Option.map_none]

section Fields

variable (hi : i < Modules.eShnum m ehdr)
include hi

theorem Unchanged.shType : shType mem (sec m ehdr i) = Modules.shType m (sec m ehdr i) := by
  rw [Modules.shType, Modules.shType, load32, load32, hk.load_field hw hi (by decide)]

theorem Unchanged.shOffset : shOffset mem (sec m ehdr i) = Modules.shOffset m (sec m ehdr i) := by
  rw [Modules.shOffset, Modules.shOffset, load32, load32, hk.load_field hw hi (by decide)]

theorem Unchanged.shSize : shSize mem (sec m ehdr i) = Modules.shSize m (sec m ehdr i) := by
  rw [Modules.shSize, Modules.shSize, load32, load32, hk.load_field hw hi (by decide)]

theorem Unchanged.shInfo : shInfo mem (sec m ehdr i) = Modules.shInfo m (sec m ehdr i) := by
  rw [Modules.shInfo, Modules.shInfo, load32, load32, hk.load_field hw hi (by decide)]

theorem Unchanged.load_rel (ht : Modules.shType m (sec m ehdr i) = shtRel) {k : ℕ}
    (hkl : k < Modules.shSize m (sec m ehdr i) / 8) (h : f + n ≤ 8) :
    load mem (relAt m ehdr i k + f) n = load m (relAt m ehdr i k + f) n := by
  rw [relAt, Nat.add_assoc]
  exact hk.load_table hw hi (Or.inr (Or.inr ht)) (by omega)

end Fields

section Symbols

variable {j : ℕ} (hj : j < symbolCount m ehdr symtab)
include hj

theorem Unchanged.load_symbol (h : f + n ≤ 16) :
    load mem (symAt m ehdr symtab j + f) n = load m (symAt m ehdr symtab j + f) n := by
  rw [symbolCount] at hj
  rw [symAt, Nat.add_assoc]
  exact hk.load_table hw hw.symtab_lt (Or.inl hw.symtab_type) (by omega)

theorem Unchanged.stName :
    stName mem (symAt m ehdr symtab j) = Modules.stName m (symAt m ehdr symtab j) := by
  have hload := hk.load_symbol hw hj (f := 0) (n := 4) (by decide)
  rw [Nat.add_zero] at hload
  rw [Modules.stName, Modules.stName, load32, load32, hload]

theorem Unchanged.stValue :
    stValue mem (symAt m ehdr symtab j) = Modules.stValue m (symAt m ehdr symtab j) := by
  rw [Modules.stValue, Modules.stValue, load32, load32, hk.load_symbol hw hj (by decide)]

theorem Unchanged.stInfo :
    stInfo mem (symAt m ehdr symtab j) = Modules.stInfo m (symAt m ehdr symtab j) :=
  load8_congr (hk.load_symbol hw hj (by decide))

theorem Unchanged.stShndx :
    stShndx mem (symAt m ehdr symtab j) = Modules.stShndx m (symAt m ehdr symtab j) := by
  rw [Modules.stShndx, Modules.stShndx, load16, load16, hk.load_symbol hw hj (by decide)]

theorem Unchanged.symName :
    nameAt mem (ehdr + Modules.shOffset m (sec m ehdr strtab) +
      Modules.stName m (symAt m ehdr symtab j)) = symName m ehdr symtab strtab j := by
  have hlt := hw.name_lt j hj
  obtain ⟨hpos, hzero⟩ := hw.strtab_end
  have hend : m ((ehdr + Modules.shOffset m (sec m ehdr strtab) +
      (Modules.shSize m (sec m ehdr strtab) - 1)) % 2 ^ 32) = 0 := by
    rw [load8] at hzero
    exact UInt8.toNat_inj.mp hzero
  have hlast : ehdr + Modules.shOffset m (sec m ehdr strtab) +
      (Modules.shSize m (sec m ehdr strtab) - 1) =
      ehdr + Modules.shOffset m (sec m ehdr strtab) + Modules.stName m (symAt m ehdr symtab j) +
        (Modules.shSize m (sec m ehdr strtab) - 1 - Modules.stName m (symAt m ehdr symtab j)) := by
    omega
  rw [hlast] at hend
  rw [Modules.symName, nameAt, nameAt, loadCString_congr _ hend]
  intro k hle
  have hload := hk.load_table hw hw.strtab_lt (Or.inr (Or.inl hw.strtab_type))
    (o := Modules.stName m (symAt m ehdr symtab j) + k) (n := 1) (by omega)
  rw [← Nat.add_assoc] at hload
  simpa [load] using hload

end Symbols

end Reads

end Bingos.Modules
