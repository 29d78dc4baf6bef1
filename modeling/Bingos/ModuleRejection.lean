import Bingos.ModulePasses

set_option autoImplicit false

/-! What a module that `module_load` rejects leaves in the symbol table. The symbol pass enters the
symbols that the object defines before it is known whether all others are resolved, and the types
of the relocations are looked at last. -/
namespace Bingos.Modules
open CStrings ByteMemory StringMaps

/-- An object with the addresses of its sections. The names start at `symstrtab`, and `symShdr` is
the header of the symbol table. -/
structure Object where
  mem : Memory
  ehdr : ℕ
  symstrtab : ℕ
  symShdr : ℕ
  sections : ℕ
  address : ℕ → ℕ

namespace Object
variable (o : Object)

def symbols : ℕ := (shSize o.mem o.symShdr + 15) / 16

def entry (j : ℕ) : ℕ := o.ehdr + shOffset o.mem o.symShdr + 16 * j

def name (j : ℕ) : Bytes := nameAt o.mem (o.symstrtab + stName o.mem (o.entry j))

def shndx (j : ℕ) : ℕ := stShndx o.mem (o.entry j)

def Global (j : ℕ) : Prop :=
  j < o.symbols ∧ stName o.mem (o.entry j) ≠ 0 ∧
    elf32StBind (stInfo o.mem (o.entry j)) = stbGlobal

def Defined (j : ℕ) : Prop := o.Global j ∧ o.shndx j ≠ 0 ∧ o.shndx j < o.sections

def Common (j : ℕ) : Prop := o.Global j ∧ o.shndx j = shnCommon ∧ o.sections ≤ shnCommon

def value (j : ℕ) : ℕ := (o.address (o.shndx j) + stValue o.mem (o.entry j)) % 2 ^ 32

def Untouched (i n : ℕ) (x : Bytes) : Prop := ∀ k, i ≤ k → k < n → o.Defined k → o.name k ≠ x

/-- The symbol table of the kernel has the names of the object already: those of its sections at
the address of their last definition, and those of its common symbols. -/
structure Known (table : Hashmap) : Prop where
  defined : ∀ j, o.Defined j → o.Untouched (j + 1) o.symbols (o.name j) →
    hashmapGet table (o.name j) = o.value j
  common : ∀ j, o.Common j → o.Untouched (j + 1) o.symbols (o.name j) →
    hashmapGet table (o.name j) ≠ 0

end Object

def objectIn (m : Memory) (ehdr symstrtab symShdr : ℕ) : Object :=
  ⟨m, ehdr, symstrtab, symShdr, (shdrs m ehdr).length, fun i => shAddr m ((shdrs m ehdr).getD i 0)⟩

def placedObject (kmalloc : ℕ → ℕ → ℕ) (ehdr : ℕ) (s : Loader) : Object :=
  objectIn (placed kmalloc ehdr s).mem ehdr (findSymstrtab s.mem ehdr (findShstrtab s.mem ehdr))
    (findSymShdr s.mem ehdr)

/-- The object as it lies in memory before the call, with the addresses its sections are to get. -/
def fileObject (kmalloc : ℕ → ℕ → ℕ) (ehdr : ℕ) (s : Loader) (symtab strtab : ℕ) : Object :=
  ⟨s.mem, ehdr, ehdr + shOffset s.mem (sec s.mem ehdr strtab), sec s.mem ehdr symtab,
    eShnum s.mem ehdr, sectionAddress kmalloc s.mem ehdr s.allocations⟩

def NewBlock (kmalloc : ℕ → ℕ → ℕ) (first v : ℕ) : Prop := ∃ n size, first ≤ n ∧ v = kmalloc n size

/-- New blocks are not NULL, and no symbol is bound to one. -/
def FreshBlocks (kmalloc : ℕ → ℕ → ℕ) (s : Loader) : Prop :=
  ∀ v, NewBlock kmalloc s.allocations v → v ≠ 0 ∧ ∀ name, hashmapGet s.symboltable name ≠ v

/-- The header is good, and none of the tables is missing. -/
def Found (m : Memory) (ehdr : ℕ) : Prop :=
  elfEhdrCheck m ehdr = true ∧ findShstrtab m ehdr ≠ 0 ∧
    findSymstrtab m ehdr (findShstrtab m ehdr) ≠ 0 ∧ findSymShdr m ehdr ≠ 0

namespace Object
variable (o : Object) (table : Hashmap)

/-- The value that the sections among the first `n` symbols give a name, or the one it had. -/
def Base (n : ℕ) (x : Bytes) (v : ℕ) : Prop :=
  (∃ j < n, o.Defined j ∧ o.name j = x ∧ o.value j = v ∧ o.Untouched (j + 1) n x) ∨
    o.Untouched 0 n x ∧ hashmapGet table x = v

/-- A common symbol among the first `n` that no section defines after it. -/
def Pending (n : ℕ) (x : Bytes) : Prop :=
  ∃ j < n, o.Common j ∧ o.name j = x ∧ o.Untouched (j + 1) n x

variable {o table} {n v : ℕ} {x : Bytes}

theorem Common.not_defined (h : o.Common n) : ¬ o.Defined n := by
  intro hd
  have hlt := hd.2.2
  rw [h.2.1] at hlt
  exact Nat.not_lt.mpr h.2.2 hlt

theorem Untouched.succ {i : ℕ} (h : o.Untouched i n x) (hn : o.Defined n → o.name n ≠ x) :
    o.Untouched i (n + 1) x := by
  intro k hik hk hd
  rcases Nat.lt_succ_iff_lt_or_eq.mp hk with hlt | rfl
  · exact h k hik hlt hd
  · exact hn hd

theorem Base.succ (h : o.Base table n x v) (hn : o.Defined n → o.name n ≠ x) :
    o.Base table (n + 1) x v := by
  rcases h with ⟨j, hj, hd, hname, hv, hlater⟩ | ⟨hnone, hv⟩
  · exact Or.inl ⟨j, Nat.lt_succ_of_lt hj, hd, hname, hv, hlater.succ hn⟩
  · exact Or.inr ⟨hnone.succ hn, hv⟩

theorem base_defined (h : o.Defined n) : o.Base table (n + 1) (o.name n) (o.value n) :=
  Or.inl ⟨n, Nat.lt_succ_self n, h, rfl, rfl, fun k hle hlt => by omega⟩

theorem pending_succ (hd : o.Defined n → o.name n ≠ x) (hc : o.Common n → o.name n ≠ x) :
    o.Pending (n + 1) x ↔ o.Pending n x := by
  constructor
  · rintro ⟨j, hj, hcommon, hname, hlater⟩
    rcases Nat.lt_succ_iff_lt_or_eq.mp hj with hlt | rfl
    · exact ⟨j, hlt, hcommon, hname, fun k hle hk => hlater k hle (Nat.lt_succ_of_lt hk)⟩
    · exact absurd hname (hc hcommon)
  · rintro ⟨j, hj, hcommon, hname, hlater⟩
    exact ⟨j, Nat.lt_succ_of_lt hj, hcommon, hname, hlater.succ hd⟩

theorem not_pending_defined (h : o.Defined n) : ¬ o.Pending (n + 1) (o.name n) := by
  rintro ⟨j, hj, hcommon, -, hlater⟩
  rcases Nat.lt_succ_iff_lt_or_eq.mp hj with hlt | rfl
  · exact hlater n hlt (Nat.lt_succ_self n) h rfl
  · exact hcommon.not_defined h

theorem pending_common (h : o.Common n) : o.Pending (n + 1) (o.name n) :=
  ⟨n, Nat.lt_succ_self n, h, rfl, fun k hle hlt => by omega⟩

variable (o table) in
/-- The symbol table after `n` symbols, of a table that was `table`: a name has the value of its
definitions, or a new block if these give it none and it is common. -/
def Entered (kmalloc : ℕ → ℕ → ℕ) (first n : ℕ) (t : Hashmap) : Prop :=
  ∀ x, ∃ v, o.Base table n x v ∧
    ((hashmapGet t x = v ∧ (o.Pending n x → v ≠ 0)) ∨
      v = 0 ∧ o.Pending n x ∧ NewBlock kmalloc first (hashmapGet t x))

variable {kmalloc : ℕ → ℕ → ℕ} {first : ℕ} {t t' : Hashmap}

theorem entered_zero : o.Entered table kmalloc first 0 table := fun _ =>
  ⟨_, Or.inr ⟨fun k _ hk => absurd hk (Nat.not_lt_zero k), rfl⟩,
    Or.inl ⟨rfl, fun ⟨j, hj, _⟩ => absurd hj (Nat.not_lt_zero j)⟩⟩

theorem Entered.other (h : o.Entered table kmalloc first n t) (hne : o.name n ≠ x)
    (hget : hashmapGet t' x = hashmapGet t x) : ∃ v, o.Base table (n + 1) x v ∧
      ((hashmapGet t' x = v ∧ (o.Pending (n + 1) x → v ≠ 0)) ∨
        v = 0 ∧ o.Pending (n + 1) x ∧ NewBlock kmalloc first (hashmapGet t' x)) := by
  obtain ⟨v, hbase, hv⟩ := h x
  refine ⟨v, hbase.succ fun _ => hne, ?_⟩
  rwa [pending_succ (fun _ => hne) (fun _ => hne), hget]

theorem Entered.define (h : o.Entered table kmalloc first n t) (hd : o.Defined n) :
    o.Entered table kmalloc first (n + 1) (hashmapSet t (o.name n) (o.value n)) := by
  intro x
  by_cases hx : o.name n = x
  · subst hx
    refine ⟨_, base_defined hd, Or.inl ⟨?_, fun hp => absurd hp (not_pending_defined hd)⟩⟩
    rw [hashmapGet_hashmapSet, if_pos rfl]
  · exact h.other hx (by rw [hashmapGet_hashmapSet, if_neg (Ne.symm hx)])

theorem Entered.allocate (h : o.Entered table kmalloc first n t) (hc : o.Common n)
    (hzero : hashmapGet t (o.name n) = 0) {b : ℕ} (hb : NewBlock kmalloc first b) :
    o.Entered table kmalloc first (n + 1) (hashmapSet t (o.name n) b) := by
  intro x
  by_cases hx : o.name n = x
  · subst hx
    obtain ⟨v, hbase, hv⟩ := h (o.name n)
    have hv0 : v = 0 := by
      rcases hv with ⟨hget, -⟩ | ⟨hv0, -⟩
      · rw [← hget, hzero]
      · exact hv0
    refine ⟨v, hbase.succ fun hd => absurd hd hc.not_defined,
      Or.inr ⟨hv0, pending_common hc, ?_⟩⟩
    rwa [hashmapGet_hashmapSet, if_pos rfl]
  · exact h.other hx (by rw [hashmapGet_hashmapSet, if_neg (Ne.symm hx)])

theorem Entered.keep (h : o.Entered table kmalloc first n t) (hd : ¬ o.Defined n)
    (hc : o.Common n → hashmapGet t (o.name n) ≠ 0) : o.Entered table kmalloc first (n + 1) t := by
  intro x
  obtain ⟨v, hbase, hv⟩ := h x
  by_cases hx : o.Common n ∧ o.name n = x
  · obtain ⟨hcommon, rfl⟩ := hx
    refine ⟨v, hbase.succ fun h => absurd h hd, ?_⟩
    rcases hv with ⟨hget, -⟩ | ⟨hv0, -, hblock⟩
    · exact Or.inl ⟨hget, fun _ => hget ▸ hc hcommon⟩
    · exact Or.inr ⟨hv0, pending_common hcommon, hblock⟩
  · refine ⟨v, hbase.succ fun h => absurd h hd, ?_⟩
    rwa [pending_succ (fun h => absurd h hd) fun h hname => hx ⟨h, hname⟩]

theorem Entered.same_iff (h : o.Entered table kmalloc first o.symbols t)
    (hnew : ∀ v, NewBlock kmalloc first v → v ≠ 0 ∧ ∀ x, hashmapGet table x ≠ v) :
    (∀ x, hashmapGet t x = hashmapGet table x) ↔ o.Known table := by
  constructor
  · intro hsame
    refine ⟨fun j hd hlast => ?_, fun j hc hlast => ?_⟩
    · obtain ⟨v, hbase, hv⟩ := h (o.name j)
      have hvalue : o.value j = v := by
        rcases hbase with ⟨k, hk, hdk, hname, hvk, hlater⟩ | ⟨hnone, -⟩
        · rcases lt_trichotomy j k with hlt | rfl | hgt
          · exact absurd hname (hlast k hlt hk hdk)
          · exact hvk
          · exact absurd rfl (hlater j hgt hd.1.1 hd)
        · exact absurd rfl (hnone j (Nat.zero_le j) hd.1.1 hd)
      rcases hv with ⟨hget, -⟩ | ⟨-, -, hblock⟩
      · rw [hvalue, ← hget, hsame]
      · exact absurd (hsame _).symm ((hnew _ hblock).2 _)
    · obtain ⟨v, -, hv⟩ := h (o.name j)
      rw [← hsame]
      rcases hv with ⟨hget, hne⟩ | ⟨-, -, hblock⟩
      · rw [hget]
        exact hne ⟨j, hc.1.1, hc, rfl, hlast⟩
      · exact (hnew _ hblock).1
  · intro hknown x
    obtain ⟨v, hbase, hv⟩ := h x
    have hold : hashmapGet table x = v := by
      rcases hbase with ⟨j, -, hd, rfl, rfl, hlater⟩ | ⟨-, hold⟩
      · exact hknown.defined j hd hlater
      · exact hold
    rcases hv with ⟨hget, -⟩ | ⟨hv0, ⟨j, -, hc, rfl, hlater⟩, -⟩
    · rw [hget, hold]
    · exact absurd (hold.trans hv0) (hknown.common j hc hlater)

end Object

section Passes
variable {kmalloc : ℕ → ℕ → ℕ} {ehdr symstrtab symShdr : ℕ} {s : Loader} {o : Object}
  {table : Hashmap} {first j : ℕ}

theorem readSymbol_cases (ho : o = objectIn s.mem ehdr symstrtab symShdr) (hj : j < o.symbols)
    (undefined : Bool) :
    (o.Defined j ∧ (readSymbol kmalloc ehdr symstrtab (o.entry j) s undefined).1.symboltable =
        hashmapSet s.symboltable (o.name j) (o.value j)) ∨
      (o.Common j ∧ hashmapGet s.symboltable (o.name j) = 0 ∧ ∃ b,
        NewBlock kmalloc s.allocations b ∧
          (readSymbol kmalloc ehdr symstrtab (o.entry j) s undefined).1.symboltable =
            hashmapSet s.symboltable (o.name j) b) ∨
      ¬ o.Defined j ∧ (o.Common j → hashmapGet s.symboltable (o.name j) ≠ 0) ∧
        (readSymbol kmalloc ehdr symstrtab (o.entry j) s undefined).1.symboltable =
          s.symboltable := by
  have hmem : o.mem = s.mem := by rw [ho]; rfl
  have hname : nameAt s.mem (symstrtab + stName s.mem (o.entry j)) = o.name j := by rw [ho]; rfl
  have hshndx : stShndx s.mem (o.entry j) = o.shndx j := by rw [ho]; rfl
  have hsections : o.sections = (shdrs s.mem ehdr).length := by rw [ho]; rfl
  have haddress : ∀ i, o.address i = shAddr s.mem ((shdrs s.mem ehdr).getD i 0) := by
    rw [ho]
    exact fun _ => rfl
  unfold readSymbol
  rw [hname, hshndx]
  by_cases hglobal : stName s.mem (o.entry j) ≠ 0 ∧
      elf32StBind (stInfo s.mem (o.entry j)) = stbGlobal
  · have hg : o.Global j := ⟨hj, by rw [hmem]; exact hglobal⟩
    rw [if_pos hglobal]
    by_cases hundef : o.shndx j = 0
    · have hnot : o.shndx j ≠ shnCommon := by
        rw [hundef]
        decide
      rw [if_pos hundef]
      exact Or.inr (Or.inr ⟨fun h => h.2.1 hundef, fun h => absurd h.2.1 hnot, rfl⟩)
    · rw [if_neg hundef]
      cases hsec : (shdrs s.mem ehdr)[o.shndx j]? with
      | some p =>
        have hlt : o.shndx j < o.sections := by
          rw [hsections]
          exact (List.getElem?_eq_some_iff.mp hsec).1
        have hvalue : o.value j = (shAddr s.mem p + stValue s.mem (o.entry j)) % 2 ^ 32 := by
          rw [Object.value, haddress, hmem, List.getD_eq_getElem?_getD, hsec, Option.getD_some]
        refine Or.inl ⟨⟨hg, hundef, hlt⟩, ?_⟩
        rw [hvalue]
        rfl
      | none =>
        have hge : o.sections ≤ o.shndx j := by
          rw [hsections]
          exact List.getElem?_eq_none_iff.mp hsec
        have hnot : ¬ o.Defined j := fun h => Nat.not_lt.mpr hge h.2.2
        dsimp only
        by_cases hcommon : o.shndx j = shnCommon ∧ hashmapGet s.symboltable (o.name j) = 0
        · rw [if_pos hcommon]
          exact Or.inr (Or.inl ⟨⟨hg, hcommon.1, hcommon.1 ▸ hge⟩, hcommon.2, _,
            ⟨_, _, le_rfl, rfl⟩, rfl⟩)
        · rw [if_neg hcommon]
          exact Or.inr (Or.inr ⟨hnot, fun h hzero => hcommon ⟨h.2.1, hzero⟩, rfl⟩)
  · have hnot : ¬ o.Global j := fun h => hglobal (by rw [← hmem]; exact h.2)
    rw [if_neg hglobal]
    exact Or.inr (Or.inr ⟨fun h => hnot h.1, fun h => absurd h.1 hnot, rfl⟩)

theorem readSymbol_allocations (sym : ℕ) (s : Loader) (undefined : Bool) :
    s.allocations ≤ (readSymbol kmalloc ehdr symstrtab sym s undefined).1.allocations := by
  unfold readSymbol
  cases (shdrs s.mem ehdr)[stShndx s.mem sym]? with
  | some p =>
    dsimp only
    split_ifs
    all_goals exact le_rfl
  | none =>
    dsimp only
    split_ifs
    · exact le_rfl
    · exact Nat.le_succ _
    all_goals exact le_rfl

theorem Object.Entered.read
    (h : o.Entered table kmalloc first j s.symboltable) (hfirst : first ≤ s.allocations)
    (ho : o = objectIn s.mem ehdr symstrtab symShdr) (hj : j < o.symbols) (undefined : Bool) :
    o.Entered table kmalloc first (j + 1)
      (readSymbol kmalloc ehdr symstrtab (o.entry j) s undefined).1.symboltable := by
  rcases readSymbol_cases ho hj undefined with
    ⟨hd, ht⟩ | ⟨hc, hzero, b, ⟨n, size, hn, hb⟩, ht⟩ | ⟨hd, hc, ht⟩
  · rw [ht]
    exact h.define hd
  · rw [ht]
    exact h.allocate hc hzero ⟨n, size, hfirst.trans hn, hb⟩
  · rw [ht]
    exact h.keep hd hc

theorem symbolLoop_entered {s' : Loader} {fuel : ℕ}
    {undefined undefined' : Bool} (ho : o = objectIn s.mem ehdr symstrtab symShdr)
    (hsize : shSize s.mem symShdr ≤ 2 ^ 32 - 16) (hfirst : first ≤ s.allocations)
    (hj : j ≤ o.symbols) (h : o.Entered table kmalloc first j s.symboltable)
    (hloop : symbolLoop kmalloc ehdr symstrtab symShdr fuel (16 * j) s undefined =
      .ok (s', undefined')) : o.Entered table kmalloc first o.symbols s'.symboltable := by
  have hsymbols : o.symbols = (shSize s.mem symShdr + 15) / 16 := by rw [ho]; rfl
  induction fuel generalizing s j undefined with
  | zero => cases hloop
  | succ fuel ih =>
    rw [symbolLoop, Nat.mod_eq_of_lt (by omega)] at hloop
    by_cases hmore : 16 * j < shSize s.mem symShdr
    · have hentry : ehdr + shOffset s.mem symShdr + 16 * j = o.entry j := by rw [ho]; rfl
      rw [if_pos hmore, hentry] at hloop
      have hmem : (readSymbol kmalloc ehdr symstrtab (o.entry j) s undefined).1.mem = s.mem :=
        readSymbol_mem ..
      exact ih (by rw [hmem]; exact ho) (by rw [hmem]; exact hsize)
        (hfirst.trans (readSymbol_allocations ..)) (by omega)
        (h.read hfirst ho (by omega) undefined) hloop (by rw [hmem]; exact hsymbols)
    · rw [if_neg hmore] at hloop
      cases hloop
      rwa [show o.symbols = j by omega]

def leaves : Except Loader Loader → Loader
  | .ok s => s
  | .error s => s

theorem sectionLoop_relates {R : Loader → Loader → Prop} (hrefl : ∀ s, R s s)
    (htrans : ∀ {s t u}, R s t → R t u → R s u) {body : ℕ → Loader → Except Loader Loader}
    (hbody : ∀ p s, R s (leaves (body p s))) (fuel x : ℕ) (s : Loader) :
    R s (leaves (sectionLoop ehdr body fuel x s)) := by
  induction fuel generalizing x s with
  | zero => exact hrefl s
  | succ fuel ih =>
    rw [sectionLoop]
    split_ifs
    · have hround := hbody (shdrAt s.mem ehdr x) s
      cases hs : body (shdrAt s.mem ehdr x) s with
      | error t =>
        rw [hs] at hround
        exact hround
      | ok t =>
        rw [hs] at hround
        exact htrans hround (ih _ t)
    · exact hrefl s

theorem placed_symboltable (s : Loader) :
    (placed kmalloc ehdr s).symboltable = s.symboltable ∧
      s.allocations ≤ (placed kmalloc ehdr s).allocations := by
  have hround : ∀ p s, (leaves (placeSection kmalloc ehdr p s)).symboltable = s.symboltable ∧
      s.allocations ≤ (leaves (placeSection kmalloc ehdr p s)).allocations := by
    intro p s
    unfold placeSection
    dsimp only
    split_ifs
    · exact ⟨rfl, Nat.le_succ _⟩
    · exact ⟨rfl, le_rfl⟩
  have hkeep := @sectionLoop_relates ehdr
    (fun s t => t.symboltable = s.symboltable ∧ s.allocations ≤ t.allocations)
    (fun _ => ⟨rfl, le_rfl⟩) (fun h h' => ⟨h'.1.trans h.1, h.2.trans h'.2⟩) _ hround sectionFuel 0 s
  rwa [sectionLoop_placed] at hkeep

theorem relocate_symboltable (shdr table : ℕ) (s : Loader) :
    (leaves (relocate ehdr symstrtab symShdr shdr table s)).symboltable = s.symboltable := by
  unfold relocate
  dsimp only
  split <;> rfl

theorem relocationLoop_symboltable (shdr fuel table : ℕ) (s : Loader) :
    (leaves (relocationLoop ehdr symstrtab symShdr shdr fuel table s)).symboltable =
      s.symboltable := by
  induction fuel generalizing table s with
  | zero => rfl
  | succ fuel ih =>
    rw [relocationLoop]
    split_ifs
    · have hround := @relocate_symboltable ehdr symstrtab symShdr shdr table s
      cases hs : relocate ehdr symstrtab symShdr shdr table s with
      | error t =>
        rw [hs] at hround
        exact hround
      | ok t =>
        rw [hs] at hround
        exact (ih _ t).trans hround
    · rfl

theorem relocateSection_symboltable (p : ℕ) (s : Loader) :
    (leaves (relocateSection ehdr symstrtab symShdr p s)).symboltable = s.symboltable := by
  unfold relocateSection
  split_ifs
  · exact relocationLoop_symboltable ..
  · rfl

theorem relocationPass_symboltable (s : Loader) :
    (leaves (sectionLoop ehdr (relocateSection ehdr symstrtab symShdr) sectionFuel 0
      s)).symboltable = s.symboltable :=
  sectionLoop_relates (R := fun s t => t.symboltable = s.symboltable) (fun _ => rfl)
    (fun h h' => h'.trans h) relocateSection_symboltable sectionFuel 0 s

theorem symbolPass_entered (hfirst : first ≤ s.allocations)
    (hsize : shSize s.mem symShdr ≤ 2 ^ 32 - 16) :
    ∃ s' undefined, symbolLoop kmalloc ehdr symstrtab symShdr (shSize s.mem symShdr / 16 + 2) 0
        s false = .ok (s', undefined) ∧
      (objectIn s.mem ehdr symstrtab symShdr).Entered s.symboltable kmalloc first
        (objectIn s.mem ehdr symstrtab symShdr).symbols s'.symboltable := by
  obtain ⟨⟨s', undefined⟩, hloop⟩ := @symbolLoop_ends (shSize s.mem symShdr / 16 + 2)
    kmalloc ehdr symstrtab symShdr 0 s false hsize (Nat.lt_add_left _ (by decide)) (by omega)
  exact ⟨s', undefined, hloop,
    symbolLoop_entered rfl hsize hfirst (Nat.zero_le _) Object.entered_zero hloop⟩

theorem moduleLoad_error {s' : Loader}
    (hsize : shSize (placed kmalloc ehdr s).mem (findSymShdr s.mem ehdr) ≤ 2 ^ 32 - 16)
    (h : moduleLoad kmalloc ehdr s = .error s') : (¬ Found s.mem ehdr ∧ s' = s) ∨
      Found s.mem ehdr ∧
        (placedObject kmalloc ehdr s).Entered s.symboltable kmalloc s.allocations
          (placedObject kmalloc ehdr s).symbols s'.symboltable := by
  rw [moduleLoad] at h
  split_ifs at h with hcheck hshstrtab hsymstrtab hsymShdr
  · cases h
    exact Or.inl ⟨fun hf => absurd hf.1 (by simp [hcheck]), rfl⟩
  · cases h
    exact Or.inl ⟨fun hf => hf.2.1 hshstrtab, rfl⟩
  · cases h
    exact Or.inl ⟨fun hf => hf.2.2.1 hsymstrtab, rfl⟩
  · cases h
    exact Or.inl ⟨fun hf => hf.2.2.2 hsymShdr, rfl⟩
  · refine Or.inr ⟨⟨by simpa using hcheck, hshstrtab, hsymstrtab, hsymShdr⟩, ?_⟩
    obtain ⟨hsame, hfirst⟩ := @placed_symboltable kmalloc ehdr s
    rw [sectionLoop_placed] at h
    rw [placedObject]
    generalize placed kmalloc ehdr s = p at h hsame hfirst hsize ⊢
    dsimp only at h
    obtain ⟨s₂, undefined, hloop, hentered⟩ := @symbolPass_entered kmalloc ehdr
      (findSymstrtab s.mem ehdr (findShstrtab s.mem ehdr)) (findSymShdr s.mem ehdr)
      { p with localSymbols := hashmapCreate 10 } _ hfirst hsize
    rw [hsame] at hentered
    rw [hloop] at h
    dsimp only at h
    split_ifs at h
    · cases h
      exact hentered
    · have hkeep := @relocationPass_symboltable ehdr
        (findSymstrtab s.mem ehdr (findShstrtab s.mem ehdr)) (findSymShdr s.mem ehdr) s₂
      rw [h] at hkeep
      rwa [show s'.symboltable = s₂.symboltable from hkeep]

end Passes

theorem Object.Known.congr {o o' : Object} {table : Hashmap} (hsymbols : o.symbols = o'.symbols)
    (hdefined : ∀ j, o.Defined j ↔ o'.Defined j) (hcommon : ∀ j, o.Common j ↔ o'.Common j)
    (hname : ∀ j < o.symbols, o.name j = o'.name j)
    (hvalue : ∀ j, o.Defined j → o.value j = o'.value j) (h : o.Known table) :
    o'.Known table := by
  have huntouched : ∀ j x, o'.Untouched j o'.symbols x → o.Untouched j o.symbols x := by
    intro j x hlast k hle hk hd
    rw [hname k hk]
    exact hlast k hle (hsymbols ▸ hk) ((hdefined k).mp hd)
  constructor
  · intro j hd hlast
    have hd' := (hdefined j).mpr hd
    rw [← hname j hd'.1.1] at hlast ⊢
    rw [← hvalue j hd']
    exact h.defined j hd' (huntouched _ _ hlast)
  · intro j hc hlast
    have hc' := (hcommon j).mpr hc
    rw [← hname j hc'.1.1] at hlast ⊢
    exact h.common j hc' (huntouched _ _ hlast)

section LaidOut
variable {kmalloc : ℕ → ℕ → ℕ} {ehdr length symtab strtab : ℕ} {s : Loader}
  (hw : LaidOut s.mem ehdr length symtab strtab)
include hw

theorem LaidOut.found : Found s.mem ehdr := by
  have hnull := hw.nonnull
  refine ⟨hw.check, findShstrtab_ne_zero hw, ?_, ?_⟩
  · rw [findSymstrtab_eq hw]
    omega
  · rw [findSymShdr_eq hw, sec, shdrAt]
    omega

theorem LaidOut.symtab_le : shSize s.mem (sec s.mem ehdr symtab) ≤ 2 ^ 32 - 16 := by
  have hnull := hw.nonnull
  have hfits := hw.fits
  have hsize := hw.symtab_size
  have hinside := (hw.inside symtab hw.symtab_lt (TableType.hasBytes (Or.inl hw.symtab_type))).2.1
  omega

variable (hka : Allocates kmalloc s.mem ehdr length)
include hka

theorem LaidOut.placing :
    Placing kmalloc ehdr s length (eShnum s.mem ehdr) (placed kmalloc ehdr s) := by
  have hfuel : eShnum s.mem ehdr < sectionFuel :=
    Nat.lt_of_lt_of_le (load16_lt _ _) (Nat.pow_le_pow_right (by decide) (by decide))
  obtain ⟨t, ht, hp⟩ := placement_pass hw hka hfuel
  rw [sectionLoop_placed] at ht
  rwa [Except.ok.inj ht]

omit hka in
theorem Placing.known_iff {t : Loader}
    (hp : Placing kmalloc ehdr s length (eShnum s.mem ehdr) t) (table : Hashmap) :
    (objectIn t.mem ehdr (findSymstrtab s.mem ehdr (findShstrtab s.mem ehdr))
      (findSymShdr s.mem ehdr)).Known table ↔
        (fileObject kmalloc ehdr s symtab strtab).Known table := by
  have hk := hp.unchanged hw le_rfl
  rw [findSymstrtab_eq hw, findSymShdr_eq hw]
  set o := objectIn t.mem ehdr (ehdr + shOffset s.mem (sec s.mem ehdr strtab))
    (sec s.mem ehdr symtab)
  have hentry : ∀ j, o.entry j = symAt s.mem ehdr symtab j := fun j => by
    simp only [o, Object.entry, objectIn, hk.shOffset hw hw.symtab_lt, symAt]
  have hsymbols : o.symbols = (fileObject kmalloc ehdr s symtab strtab).symbols := by
    simp only [o, Object.symbols, objectIn, fileObject, hk.shSize hw hw.symtab_lt]
  have hcount : ∀ j, j < o.symbols → j < symbolCount s.mem ehdr symtab := by
    intro j hj
    have hsize := hw.symtab_size
    rw [hsymbols, Object.symbols] at hj
    rw [symbolCount]
    simp only [fileObject] at hj
    omega
  have hsections : o.sections = eShnum s.mem ehdr := by
    simp only [o, objectIn, shdrs, hk.eShentsize hw, hk.eShnum hw]
    simp
  have haddress : ∀ i < eShnum s.mem ehdr,
      o.address i = sectionAddress kmalloc s.mem ehdr s.allocations i := by
    intro i hi
    rw [← hp.shAddr i hi]
    simp only [o, objectIn, List.getD_eq_getElem?_getD, hk.shdrs_getElem hw, if_pos hi,
      Option.getD_some]
  have hshndx : ∀ j < o.symbols, o.shndx j = (fileObject kmalloc ehdr s symtab strtab).shndx j := by
    intro j hj
    rw [Object.shndx, hentry]
    exact hk.stShndx hw (hcount j hj)
  have hname : ∀ j < o.symbols, o.name j = (fileObject kmalloc ehdr s symtab strtab).name j := by
    intro j hj
    rw [Object.name, hentry]
    simp only [o, objectIn, hk.stName hw (hcount j hj)]
    exact hk.symName hw (hcount j hj)
  have hglobal : ∀ j, o.Global j ↔ (fileObject kmalloc ehdr s symtab strtab).Global j := by
    intro j
    rw [Object.Global, Object.Global, ← hsymbols]
    refine and_congr_right fun hj => ?_
    rw [hentry]
    simp only [o, objectIn, hk.stName hw (hcount j hj), hk.stInfo hw (hcount j hj)]
    exact Iff.rfl
  have hdefined : ∀ j, o.Defined j ↔ (fileObject kmalloc ehdr s symtab strtab).Defined j := by
    intro j
    rw [Object.Defined, Object.Defined, ← hglobal, hsections]
    refine and_congr_right fun hg => ?_
    rw [hshndx j hg.1]
    exact Iff.rfl
  have hcommon : ∀ j, o.Common j ↔ (fileObject kmalloc ehdr s symtab strtab).Common j := by
    intro j
    rw [Object.Common, Object.Common, ← hglobal, hsections]
    refine and_congr_right fun hg => ?_
    rw [hshndx j hg.1]
    exact Iff.rfl
  have hvalue : ∀ j, o.Defined j →
      o.value j = (fileObject kmalloc ehdr s symtab strtab).value j := by
    intro j hd
    rw [Object.value, haddress _ (hsections ▸ hd.2.2), hshndx j hd.1.1, hentry]
    simp only [o, objectIn, hk.stValue hw (hcount j hd.1.1)]
    rfl
  exact ⟨Object.Known.congr hsymbols hdefined hcommon hname hvalue,
    Object.Known.congr hsymbols.symm (fun j => (hdefined j).symm) (fun j => (hcommon j).symm)
      (fun j hj => (hname j (hsymbols ▸ hj)).symm)
      fun j hd => (hvalue j ((hdefined j).mpr hd)).symm⟩

end LaidOut

/-- A rejected module leaves every lookup as it was exactly if its names were known before: for an
object that is laid out in its file, those it has there, and for any other those of its image. -/
theorem rejected_table_iff {kmalloc : ℕ → ℕ → ℕ} {ehdr : ℕ} {s s' : Loader}
    (hnew : FreshBlocks kmalloc s) (h : moduleLoad kmalloc ehdr s = .error s') :
    (∀ length symtab strtab, LaidOut s.mem ehdr length symtab strtab →
      Allocates kmalloc s.mem ehdr length →
        ((∀ name, hashmapGet s'.symboltable name = hashmapGet s.symboltable name) ↔
          (fileObject kmalloc ehdr s symtab strtab).Known s.symboltable)) ∧
      (shSize (placed kmalloc ehdr s).mem (findSymShdr s.mem ehdr) ≤ 2 ^ 32 - 16 →
        ((∀ name, hashmapGet s'.symboltable name = hashmapGet s.symboltable name) ↔
          (Found s.mem ehdr → (placedObject kmalloc ehdr s).Known s.symboltable))) := by
  have himage : shSize (placed kmalloc ehdr s).mem (findSymShdr s.mem ehdr) ≤ 2 ^ 32 - 16 →
      ((∀ name, hashmapGet s'.symboltable name = hashmapGet s.symboltable name) ↔
        (Found s.mem ehdr → (placedObject kmalloc ehdr s).Known s.symboltable)) := by
    intro hsize
    rcases moduleLoad_error hsize h with ⟨hnot, rfl⟩ | ⟨hfound, hentered⟩
    · exact iff_of_true (fun _ => rfl) fun hf => absurd hf hnot
    · rw [hentered.same_iff hnew]
      exact ⟨fun hknown _ => hknown, fun hknown => hknown hfound⟩
  refine ⟨fun length symtab strtab hw hka => ?_, himage⟩
  have hp := hw.placing hka
  have hsize : shSize (placed kmalloc ehdr s).mem (findSymShdr s.mem ehdr) ≤ 2 ^ 32 - 16 := by
    rw [findSymShdr_eq hw, (hp.unchanged hw le_rfl).shSize hw hw.symtab_lt]
    exact hw.symtab_le
  rw [himage hsize, ← Placing.known_iff hw hp]
  exact ⟨fun hknown => hknown hw.found, fun hknown _ => hknown⟩

/-- An object with the global symbol `a`, 4 bytes into section 1, and `b`, which is
undefined: the strings at 52, three section headers at 68, the symbols at 188. -/
def strayBytes : Bytes :=
  [0x7F, 69, 76, 70, 1, 1, 1, 0, 0, 0, 0, 0, 0, 0, 0, 0] ++
  (toLE 2 1 ++ toLE 2 3 ++ toLE 4 1 ++ toLE 4 0 ++ toLE 4 0 ++ toLE 4 68 ++ toLE 4 0) ++
  (toLE 2 52 ++ toLE 2 0 ++ toLE 2 0 ++ toLE 2 40 ++ toLE 2 3 ++ toLE 2 1) ++
  (0 :: strtabName ++ [0, 97, 0, 98, 0]) ++ [0, 0, 0] ++
  ([[0, 0, 0, 0, 0, 0, 0, 0, 0, 0], [1, 3, 0, 0, 52, 13, 0, 0, 0, 0],
    [0, 2, 0, 0, 188, 32, 1, 0, 0, 0]].flatMap fun fields => fields.flatMap (toLE 4)) ++
  (toLE 4 9 ++ toLE 4 4 ++ toLE 4 0 ++ toLE 2 16 ++ toLE 2 1) ++
  (toLE 4 11 ++ toLE 4 0 ++ toLE 4 0 ++ toLE 2 16 ++ toLE 2 0)

/-- The object at `0x1000`, and a symbol table that has `a` at its place or lacks it. -/
def strayLoader (bound : Bool) : Loader :=
  ⟨fun a => strayBytes.getD (a - 0x1000) 0,
    if bound then hashmapSet (hashmapCreate 200) [97] 0x1038 else hashmapCreate 200,
    hashmapCreate 10, 0⟩

theorem stray_laidOut (bound : Bool) : LaidOut (strayLoader bound).mem 0x1000 220 2 1 := by
  cases bound <;> constructor <;> decide +kernel

theorem stray_rejected (bound : Bool) : ∃ s',
    moduleLoad (fun _ _ => 0x5000) 0x1000 (strayLoader bound) = .error s' ∧
      hashmapGet s'.symboltable [97] = 0x1038 := by
  have hnone : (moduleLoad (fun _ _ => 0x5000) 0x1000 (strayLoader bound)).toOption.isNone ∧
      hashmapGet (leaves (moduleLoad (fun _ _ => 0x5000) 0x1000 (strayLoader bound))).symboltable
        [97] = 0x1038 := by
    cases bound <;> decide +kernel
  cases h : moduleLoad (fun _ _ => 0x5000) 0x1000 (strayLoader bound) with
  | ok s' =>
    rw [h] at hnone
    cases hnone.1
  | error s' =>
    rw [h] at hnone
    exact ⟨s', rfl, hnone.2⟩

/-- The symbol was already bound to the address the module has for it. -/
theorem rejected_table_iff_rebound :
    ∃ s', moduleLoad (fun _ _ => 0x5000) 0x1000 (strayLoader true) = .error s' ∧
      ∀ name, hashmapGet s'.symboltable name = hashmapGet (strayLoader true).symboltable name := by
  obtain ⟨s', hrejected, -⟩ := stray_rejected true
  have hnew : FreshBlocks (fun _ _ => 0x5000) (strayLoader true) := by
    have hget : ∀ name, hashmapGet (strayLoader true).symboltable name ≠ 0x5000 := by
      intro name
      rw [show (strayLoader true).symboltable = hashmapSet (hashmapCreate 200) [97] 0x1038 from rfl,
        hashmapGet_hashmapSet]
      split_ifs
      · decide
      · rw [show hashmapGet (hashmapCreate 200) name = 0 from rfl]
        decide
    rintro _ ⟨_, _, -, rfl⟩
    exact ⟨Nat.succ_ne_zero _, hget⟩
  have hka : Allocates (fun _ _ => 0x5000) (strayLoader true).mem 0x1000 220 := by
    refine ⟨fun _ _ => by decide, fun i hi hnobits => ?_⟩
    have hnone : ∀ i < eShnum (strayLoader true).mem 0x1000,
        shType (strayLoader true).mem (sec (strayLoader true).mem 0x1000 i) ≠ shtNobits := by
      decide +kernel
    exact absurd hnobits (hnone i hi)
  refine ⟨s', hrejected, ((rejected_table_iff hnew hrejected).1 220 2 1 (stray_laidOut true)
    hka).mpr ?_⟩
  have hsymbols : (fileObject (fun _ _ => 0x5000) 0x1000 (strayLoader true) 2 1).symbols = 2 := by
    decide +kernel
  constructor
  · intro j hd hlast
    have hj := hd.1.1
    rw [hsymbols] at hj
    interval_cases j
    · decide +kernel
    · exact absurd (by decide +kernel) hd.2.1
  · intro j hc
    have hj := hc.1.1
    rw [hsymbols] at hj
    interval_cases j
    · exact absurd hc.2.1 (by decide +kernel)
    · exact absurd hc.2.1 (by decide +kernel)

/-- The module is rejected for `b`, and `a`, which was not known before, stays bound. -/
theorem rejected_module_leaves_symbol :
    hashmapGet (strayLoader false).symboltable [97] = 0 ∧
      ∃ s', moduleLoad (fun _ _ => 0x5000) 0x1000 (strayLoader false) = .error s' ∧
        hashmapGet s'.symboltable [97] = 0x1038 :=
  ⟨by decide +kernel, stray_rejected false⟩

end Bingos.Modules
