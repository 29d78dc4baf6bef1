import Mathlib.Order.Interval.Set.Disjoint
import Bingos.ModulePasses

set_option autoImplicit false

/-! The storage of common symbols: the blocks `module_load` requests for them in its symbol
pass, next to those of its `NOBITS` sections. -/
namespace Bingos.Modules
open CStrings ByteMemory StringMaps

def stSize (m : Memory) (p : ℕ) : ℕ := load32 m (p + 8)

structure Block where
  addr : ℕ
  size : ℕ
deriving DecidableEq

def Block.bytes (b : Block) : Set ℕ := Set.Ico b.addr (b.addr + b.size)

def image (ehdr length : ℕ) : Set ℕ := Set.Ico ehdr (ehdr + length)

/-- The allocator's contract for the requests of a load: the blocks are apart from one another
and from the object. -/
structure Grants (ehdr length : ℕ) (blocks : List Block) : Prop where
  apart : blocks.Pairwise fun b c => Disjoint b.bytes c.bytes
  outside : ∀ b ∈ blocks, Disjoint b.bytes (image ehdr length)

/-- A round of the symbol loop: the entry it reads and the loader it reads it in. -/
structure Round where
  sym : ℕ
  loader : Loader

section Bindings
variable (kmalloc : ℕ → ℕ → ℕ) (ehdr symstrtab symShdr : ℕ)

def publishedSymbol (sym : ℕ) (s : Loader) : Option (Bytes × ℕ) :=
  if stName s.mem sym ≠ 0 ∧ elf32StBind (stInfo s.mem sym) = stbGlobal ∧ stShndx s.mem sym ≠ 0 then
    let name := nameAt s.mem (symstrtab + stName s.mem sym)
    match (shdrs s.mem ehdr)[stShndx s.mem sym]? with
    | some p => some (name, (shAddr s.mem p + stValue s.mem sym) % 2 ^ 32)
    | none =>
      if stShndx s.mem sym = shnCommon ∧ hashmapGet s.symboltable name = 0 then
        some (name, kmalloc s.allocations (stValue s.mem sym))
      else none
  else none

def publishedSymbols : ℕ → ℕ → Loader → List (Bytes × ℕ)
  | 0, _, _ => []
  | fuel + 1, t, s =>
    if t % 2 ^ 32 < shSize s.mem symShdr then
      let sym := ehdr + shOffset s.mem symShdr + t
      (publishedSymbol kmalloc ehdr symstrtab sym s).toList ++
        publishedSymbols fuel (t + 16) (readSymbol kmalloc ehdr symstrtab sym s false).1
    else []

end Bindings

section Requests
variable (kmalloc : ℕ → ℕ → ℕ) (ehdr symstrtab symShdr : ℕ)

def sectionBlock (p : ℕ) (s : Loader) : Option Block :=
  if shType s.mem p = shtNobits then
    some ⟨kmalloc s.allocations (shSize s.mem p), shSize s.mem p⟩
  else none

def nobitsBlocks : ℕ → ℕ → Loader → List Block
  | 0, _, _ => []
  | fuel + 1, x, s =>
    if x < eShentsize s.mem ehdr * eShnum s.mem ehdr then
      let p := shdrAt s.mem ehdr x
      (sectionBlock kmalloc p s).toList ++
        match placeSection kmalloc ehdr p s with
        | .error _ => []
        | .ok s' => nobitsBlocks fuel (x + eShentsize s'.mem ehdr) s'
    else []

def symbolRounds : ℕ → ℕ → Loader → List Round
  | 0, _, _ => []
  | fuel + 1, t, s =>
    if t % 2 ^ 32 < shSize s.mem symShdr then
      let sym := ehdr + shOffset s.mem symShdr + t
      ⟨sym, s⟩ :: symbolRounds fuel (t + 16) (readSymbol kmalloc ehdr symstrtab sym s false).1
    else []

def Round.name (r : Round) : Bytes := nameAt r.loader.mem (symstrtab + stName r.loader.mem r.sym)

def Round.block (r : Round) : Option Block :=
  if (stName r.loader.mem r.sym ≠ 0 ∧ elf32StBind (stInfo r.loader.mem r.sym) = stbGlobal) ∧
      (shdrs r.loader.mem ehdr)[stShndx r.loader.mem r.sym]? = none ∧
      stShndx r.loader.mem r.sym = shnCommon ∧
      hashmapGet r.loader.symboltable (r.name symstrtab) = 0 then
    some ⟨kmalloc r.loader.allocations (stValue r.loader.mem r.sym), stValue r.loader.mem r.sym⟩
  else none

/-- The round reads a global common symbol that is not in the symbol table yet. -/
def Round.IsCommon (r : Round) : Prop :=
  elf32StBind (stInfo r.loader.mem r.sym) = stbGlobal ∧ stShndx r.loader.mem r.sym = shnCommon ∧
    hashmapGet r.loader.symboltable (r.name symstrtab) = 0

instance (r : Round) : Decidable (r.IsCommon symstrtab) :=
  inferInstanceAs (Decidable (_ ∧ _ ∧ _))

end Requests

section Rounds
variable {kmalloc : ℕ → ℕ → ℕ} {ehdr symstrtab symShdr : ℕ}

theorem readSymbol_flag (sym : ℕ) (s : Loader) (undefined : Bool) :
    (readSymbol kmalloc ehdr symstrtab sym s undefined).1 =
      (readSymbol kmalloc ehdr symstrtab sym s false).1 := by
  unfold readSymbol
  cases (shdrs s.mem ehdr)[stShndx s.mem sym]? with
  | some p =>
    dsimp only
    split_ifs
    all_goals rfl
  | none =>
    dsimp only
    split_ifs
    all_goals rfl

theorem readSymbol_symboltable (sym : ℕ) (s : Loader) (undefined : Bool) :
    (readSymbol kmalloc ehdr symstrtab sym s undefined).1.symboltable =
      (publishedSymbol kmalloc ehdr symstrtab sym s).toList.foldl enter s.symboltable := by
  unfold readSymbol publishedSymbol
  by_cases hglobal : stName s.mem sym ≠ 0 ∧ elf32StBind (stInfo s.mem sym) = stbGlobal
  · rw [if_pos hglobal]
    by_cases hundef : stShndx s.mem sym = 0
    · have hnone : ¬(stName s.mem sym ≠ 0 ∧ elf32StBind (stInfo s.mem sym) = stbGlobal ∧
          stShndx s.mem sym ≠ 0) := fun h => h.2.2 hundef
      rw [if_neg hnone, if_pos hundef]
      rfl
    · have hsome : stName s.mem sym ≠ 0 ∧ elf32StBind (stInfo s.mem sym) = stbGlobal ∧
          stShndx s.mem sym ≠ 0 := ⟨hglobal.1, hglobal.2, hundef⟩
      rw [if_neg hundef, if_pos hsome]
      cases (shdrs s.mem ehdr)[stShndx s.mem sym]? with
      | some p => rfl
      | none =>
        dsimp only
        split_ifs
        · rfl
        · rfl
  · rw [if_neg hglobal, if_neg fun h => hglobal ⟨h.1, h.2.1⟩]
    rfl

theorem symbolLoop_symboltable {n t : ℕ} {s s' : Loader} {undefined undefined' : Bool}
    (h : symbolLoop kmalloc ehdr symstrtab symShdr n t s undefined = .ok (s', undefined')) :
    s'.symboltable =
      (publishedSymbols kmalloc ehdr symstrtab symShdr n t s).foldl enter s.symboltable := by
  induction n generalizing t s undefined with
  | zero => cases h
  | succ n ih =>
    rw [symbolLoop] at h
    rw [publishedSymbols]
    by_cases hmore : t % 2 ^ 32 < shSize s.mem symShdr
    · rw [if_pos hmore] at h ⊢
      dsimp only at h ⊢
      have htail := ih h
      rw [readSymbol_flag] at htail
      rw [htail, readSymbol_symboltable, List.foldl_append]
    · rw [if_neg hmore] at h ⊢
      cases h
      rfl

theorem Round.published_of_block {r : Round} {b : Block}
    (h : r.block kmalloc ehdr symstrtab = some b) :
    publishedSymbol kmalloc ehdr symstrtab r.sym r.loader = some (r.name symstrtab, b.addr) := by
  unfold Round.block at h
  split_ifs at h with hall
  obtain ⟨⟨hnamed, hglobal⟩, hsection, hcommon, habsent⟩ := hall
  have hdefined : stShndx r.loader.mem r.sym ≠ 0 := by
    rw [hcommon]
    decide
  rw [Round.name] at habsent
  cases h
  unfold publishedSymbol
  rw [if_pos ⟨hnamed, hglobal, hdefined⟩, hsection]
  dsimp only
  rw [if_pos ⟨hcommon, habsent⟩, Round.name]

theorem publishedSymbols_eq (n t : ℕ) (s : Loader) :
    publishedSymbols kmalloc ehdr symstrtab symShdr n t s =
      (symbolRounds kmalloc ehdr symstrtab symShdr n t s).flatMap fun r =>
        (publishedSymbol kmalloc ehdr symstrtab r.sym r.loader).toList := by
  induction n generalizing t s with
  | zero => rfl
  | succ n ih =>
    rw [publishedSymbols, symbolRounds]
    split_ifs
    · rw [List.flatMap_cons, ← ih]
    · rfl

end Rounds

theorem lastValue_of_count {bs cs : List (Bytes × ℕ)} {name : Bytes} {v : ℕ}
    (h : ((bs ++ (name, v) :: cs).map Prod.fst).count name = 1) :
    lastValue (bs ++ (name, v) :: cs) name = some v := by
  have hcs : (cs.map Prod.fst).count name = 0 := by
    rw [List.map_append, List.count_append, List.map_cons, List.count_cons_self] at h
    omega
  have hnone : cs.reverse.find? (fun b => b.1 = name) = none := by
    rw [List.find?_eq_none]
    intro b hb hname
    apply List.count_eq_zero.mp hcs
    rw [← of_decide_eq_true hname]
    exact List.mem_map_of_mem (List.mem_reverse.mp hb)
  rw [lastValue, List.reverse_append, List.reverse_cons, List.append_assoc, List.find?_append,
    hnone]
  simp

structure SymbolPass where
  kmalloc : ℕ → ℕ → ℕ
  ehdr : ℕ
  symstrtab : ℕ
  symShdr : ℕ
  start : Loader

def symbolPass (kmalloc : ℕ → ℕ → ℕ) (ehdr : ℕ) (s : Loader) : SymbolPass :=
  ⟨kmalloc, ehdr, findSymstrtab s.mem ehdr (findShstrtab s.mem ehdr), findSymShdr s.mem ehdr,
    { placed kmalloc ehdr s with localSymbols := hashmapCreate 10 }⟩

namespace SymbolPass
variable (p : SymbolPass)

def rounds (n : ℕ) : List Round := symbolRounds p.kmalloc p.ehdr p.symstrtab p.symShdr n 0 p.start

def run (n : ℕ) : Except Loader (Loader × Bool) :=
  symbolLoop p.kmalloc p.ehdr p.symstrtab p.symShdr n 0 p.start false

def published (n : ℕ) : List (Bytes × ℕ) :=
  publishedSymbols p.kmalloc p.ehdr p.symstrtab p.symShdr n 0 p.start

def name (r : Round) : Bytes := r.name p.symstrtab

def tableAfter (r : Round) : Hashmap :=
  (readSymbol p.kmalloc p.ehdr p.symstrtab r.sym r.loader false).1.symboltable

def blocks (rs : List Round) : List Block :=
  rs.filterMap fun r => r.block p.kmalloc p.ehdr p.symstrtab

/-- The symbol read in round `r` is bound to a block that holds it and that is apart from the
object and from the other blocks. It is still bound to it behind the pass, if no other symbol of
the object publishes its name. -/
def Stored (length n : ℕ) (others : List Block) (r : Round) : Prop :=
  ∃ b, r.block p.kmalloc p.ehdr p.symstrtab = some b ∧
    hashmapGet (p.tableAfter r) (p.name r) = b.addr ∧
    (∀ s' undefined, p.run n = .ok (s', undefined) →
      ((p.published n).map Prod.fst).count (p.name r) = 1 →
        hashmapGet s'.symboltable (p.name r) = b.addr) ∧
    stSize r.loader.mem r.sym ≤ b.size ∧
    (∀ c ∈ others, Disjoint b.bytes c.bytes) ∧ Disjoint b.bytes (image p.ehdr length)

variable {p} {r : Round} {b : Block} {n : ℕ} {before after : List Round}

theorem tableAfter_of_block (h : r.block p.kmalloc p.ehdr p.symstrtab = some b) :
    hashmapGet (p.tableAfter r) (p.name r) = b.addr := by
  rw [tableAfter, readSymbol_symboltable, Round.published_of_block h, Option.toList_some,
    List.foldl_cons, List.foldl_nil, enter, hashmapGet_hashmapSet, name, if_pos rfl]

theorem run_of_block (h : r.block p.kmalloc p.ehdr p.symstrtab = some b)
    (hrounds : p.rounds n = before ++ r :: after) {s' : Loader} {undefined : Bool}
    (hrun : p.run n = .ok (s', undefined))
    (hcount : ((p.published n).map Prod.fst).count (p.name r) = 1) :
    hashmapGet s'.symboltable (p.name r) = b.addr := by
  have hpublished : p.published n =
      (before.flatMap fun r => (publishedSymbol p.kmalloc p.ehdr p.symstrtab r.sym r.loader).toList) ++
        (p.name r, b.addr) ::
      (after.flatMap fun r =>
        (publishedSymbol p.kmalloc p.ehdr p.symstrtab r.sym r.loader).toList) := by
    rw [published, publishedSymbols_eq, ← rounds, hrounds, List.flatMap_append, List.flatMap_cons,
      Round.published_of_block h]
    rfl
  rw [symbolLoop_symboltable hrun, hashmapGet_foldl_enter, ← published]
  rw [hpublished] at hcount ⊢
  rw [lastValue_of_count hcount, Option.getD_some]

theorem blocks_of_block (h : r.block p.kmalloc p.ehdr p.symstrtab = some b) :
    p.blocks (before ++ r :: after) = p.blocks before ++ b :: p.blocks after := by
  rw [blocks, List.filterMap_append, List.filterMap_cons, h]
  rfl

theorem block_eq_some_iff :
    r.block p.kmalloc p.ehdr p.symstrtab = some b ↔
      (r.IsCommon p.symstrtab ∧ stName r.loader.mem r.sym ≠ 0 ∧
        (shdrs r.loader.mem p.ehdr)[shnCommon]? = none) ∧
      b = ⟨p.kmalloc r.loader.allocations (stValue r.loader.mem r.sym),
        stValue r.loader.mem r.sym⟩ := by
  unfold Round.block Round.IsCommon
  constructor
  · intro h
    split_ifs at h with hall
    obtain ⟨⟨hnamed, hglobal⟩, hsection, hcommon, habsent⟩ := hall
    rw [hcommon] at hsection
    cases h
    exact ⟨⟨⟨hglobal, hcommon, habsent⟩, hnamed, hsection⟩, rfl⟩
  · rintro ⟨⟨⟨hglobal, hcommon, habsent⟩, hnamed, hsection⟩, rfl⟩
    rw [← hcommon] at hsection
    rw [if_pos ⟨⟨hnamed, hglobal⟩, hsection, hcommon, habsent⟩]

end SymbolPass

section Storage
variable {kmalloc : ℕ → ℕ → ℕ} {ehdr length : ℕ} {s : Loader} {n : ℕ}

/-- Every common symbol gets its storage exactly if each has a name, no section has the reserved
index and no symbol's size exceeds its value: the value, for a common symbol its alignment, is
what the pass requests. Both passes end, the second one if its table is not longer than memory. -/
theorem common_symbols_stored_iff
    (hgrants : Grants ehdr length (nobitsBlocks kmalloc ehdr sectionFuel 0 s ++
      (symbolPass kmalloc ehdr s).blocks ((symbolPass kmalloc ehdr s).rounds n))) :
    sectionLoop ehdr (placeSection kmalloc ehdr) sectionFuel 0 s = .ok (placed kmalloc ehdr s) ∧
    (shSize (placed kmalloc ehdr s).mem (symbolPass kmalloc ehdr s).symShdr ≤ 2 ^ 32 - 16 →
      shSize (placed kmalloc ehdr s).mem (symbolPass kmalloc ehdr s).symShdr / 16 + 2 ≤ n →
      ∃ r, (symbolPass kmalloc ehdr s).run n = .ok r) ∧
    ((∀ before r after, (symbolPass kmalloc ehdr s).rounds n = before ++ r :: after →
        r.IsCommon (symbolPass kmalloc ehdr s).symstrtab →
        (symbolPass kmalloc ehdr s).Stored length n
          (nobitsBlocks kmalloc ehdr sectionFuel 0 s ++
            (symbolPass kmalloc ehdr s).blocks (before ++ after)) r) ↔
      ∀ r ∈ (symbolPass kmalloc ehdr s).rounds n,
        r.IsCommon (symbolPass kmalloc ehdr s).symstrtab →
        stName r.loader.mem r.sym ≠ 0 ∧ (shdrs r.loader.mem ehdr)[shnCommon]? = none ∧
          stSize r.loader.mem r.sym ≤ stValue r.loader.mem r.sym) := by
  refine ⟨sectionLoop_placed kmalloc ehdr s, ?_, ?_⟩
  · intro hsize hn
    apply symbolLoop_ends
    · exact hsize
    · omega
    · change shSize (placed kmalloc ehdr s).mem (symbolPass kmalloc ehdr s).symShdr + 15 < 0 + 16 * n
      omega
  · constructor
    · intro hstored r hr hcommon
      obtain ⟨before, after, hrounds⟩ := List.append_of_mem hr
      obtain ⟨b, hb, -, -, hsize, -, -⟩ := hstored before r after hrounds hcommon
      obtain ⟨⟨-, hnamed, hsection⟩, rfl⟩ := SymbolPass.block_eq_some_iff.mp hb
      exact ⟨hnamed, hsection, hsize⟩
    · intro hfits before r after hrounds hcommon
      have hr : r ∈ (symbolPass kmalloc ehdr s).rounds n := by
        rw [hrounds]
        exact List.mem_append_right _ List.mem_cons_self
      obtain ⟨hnamed, hsection, hsize⟩ := hfits r hr hcommon
      have hb := SymbolPass.block_eq_some_iff.mpr ⟨⟨hcommon, hnamed, hsection⟩, rfl⟩
      obtain ⟨hapart, houtside⟩ := hgrants
      rw [hrounds, SymbolPass.blocks_of_block hb, ← List.append_assoc] at hapart houtside
      refine ⟨_, hb, SymbolPass.tableAfter_of_block hb,
        fun s' undefined => SymbolPass.run_of_block hb hrounds, hsize, ?_, ?_⟩
      · rw [List.pairwise_middle fun h => h.symm, List.pairwise_cons] at hapart
        rw [SymbolPass.blocks, List.filterMap_append, ← List.append_assoc]
        exact hapart.1
      · exact houtside _ (List.mem_append_right _ List.mem_cons_self)

end Storage

/-- An object with the common symbols `a` and `b`, both of alignment 4, and a `NOBITS` section of
16 bytes: the strings at 52, four section headers at 68, the symbols at 228. -/
def commonBytes (size : ℕ) : Bytes :=
  [0x7F, 69, 76, 70, 1, 1, 1, 0, 0, 0, 0, 0, 0, 0, 0, 0] ++
  (toLE 2 1 ++ toLE 2 3 ++ toLE 4 1 ++ toLE 4 0 ++ toLE 4 0 ++ toLE 4 68 ++ toLE 4 0) ++
  (toLE 2 52 ++ toLE 2 0 ++ toLE 2 0 ++ toLE 2 40 ++ toLE 2 4 ++ toLE 2 1) ++
  (0 :: strtabName ++ [0, 97, 0, 98, 0]) ++ [0, 0, 0] ++
  ([[0, 0, 0, 0, 0, 0, 0, 0, 0, 0], [1, 3, 0, 0, 52, 13, 0, 0, 0, 0],
    [0, 2, 0, 0, 228, 32, 1, 0, 0, 0], [0, 8, 0, 0, 0, 16, 0, 0, 0, 0]].flatMap fun fields =>
      fields.flatMap (toLE 4)) ++
  (toLE 4 9 ++ toLE 4 4 ++ toLE 4 size ++ toLE 2 16 ++ toLE 2 shnCommon) ++
  (toLE 4 11 ++ toLE 4 4 ++ toLE 4 size ++ toLE 2 16 ++ toLE 2 shnCommon)

def commonLoader (size : ℕ) : Loader :=
  ⟨fun a => (commonBytes size).getD (a - 0x1000) 0, hashmapCreate 200, hashmapCreate 10, 0⟩

def smallBlocks (n _size : ℕ) : ℕ := 0x5000 + 16 * n

abbrev commonPass (size : ℕ) : SymbolPass := symbolPass smallBlocks 0x1000 (commonLoader size)

theorem grants_common {size : ℕ}
    (hnobits : nobitsBlocks smallBlocks 0x1000 sectionFuel 0 (commonLoader size) = [⟨0x5000, 16⟩])
    (hblocks : (commonPass size).blocks ((commonPass size).rounds 4) =
      [⟨0x5010, 4⟩, ⟨0x5020, 4⟩]) :
    Grants 0x1000 260 (nobitsBlocks smallBlocks 0x1000 sectionFuel 0 (commonLoader size) ++
      (commonPass size).blocks ((commonPass size).rounds 4)) := by
  rw [hnobits, hblocks]
  constructor
  · simp [Block.bytes]
  · simp [Block.bytes, image]

theorem common_words_stored :
    ((commonPass 4).rounds 4).length = 2 ∧
      ∀ before r after, (commonPass 4).rounds 4 = before ++ r :: after →
        r.IsCommon (commonPass 4).symstrtab →
        (commonPass 4).Stored 260 4
          (nobitsBlocks smallBlocks 0x1000 sectionFuel 0 (commonLoader 4) ++
            (commonPass 4).blocks (before ++ after)) r := by
  have hnobits : nobitsBlocks smallBlocks 0x1000 sectionFuel 0 (commonLoader 4) =
      [⟨0x5000, 16⟩] := by
    decide +kernel
  have hblocks : (commonPass 4).blocks ((commonPass 4).rounds 4) = [⟨0x5010, 4⟩, ⟨0x5020, 4⟩] := by
    decide +kernel
  constructor
  · decide +kernel
  · apply (common_symbols_stored_iff (grants_common hnobits hblocks)).2.2.mpr
    decide +kernel

/-- Two arrays of 100 bytes are bound 16 bytes apart, each to a block of 4 bytes. -/
theorem common_arrays_overlap :
    Grants 0x1000 260 (nobitsBlocks smallBlocks 0x1000 sectionFuel 0 (commonLoader 100) ++
      (commonPass 100).blocks ((commonPass 100).rounds 4)) ∧
    (∃ r ∈ (commonPass 100).rounds 4, r.IsCommon (commonPass 100).symstrtab ∧
      stSize r.loader.mem r.sym = 100 ∧ ∀ others, ¬ (commonPass 100).Stored 260 4 others r) ∧
    ∃ s', (commonPass 100).run 4 = .ok (s', false) ∧
      hashmapGet s'.symboltable [97] = 0x5010 ∧ hashmapGet s'.symboltable [98] = 0x5020 := by
  have hnobits : nobitsBlocks smallBlocks 0x1000 sectionFuel 0 (commonLoader 100) =
      [⟨0x5000, 16⟩] := by
    decide +kernel
  have hblocks : (commonPass 100).blocks ((commonPass 100).rounds 4) =
      [⟨0x5010, 4⟩, ⟨0x5020, 4⟩] := by
    decide +kernel
  have hround : ∃ r ∈ (commonPass 100).rounds 4, r.IsCommon (commonPass 100).symstrtab ∧
      stSize r.loader.mem r.sym = 100 ∧ stValue r.loader.mem r.sym = 4 := by
    decide +kernel
  have hpublished : (commonPass 100).published 4 = [([97], 0x5010), ([98], 0x5020)] := by
    decide +kernel
  have hflag : ((commonPass 100).run 4).toOption.map Prod.snd = some false := by
    decide +kernel
  obtain ⟨r, hr, hcommon, hsize, hvalue⟩ := hround
  refine ⟨grants_common hnobits hblocks, ⟨r, hr, hcommon, hsize, ?_⟩, ?_⟩
  · rintro others ⟨b, hb, -, -, hfits, -, -⟩
    obtain ⟨-, rfl⟩ := SymbolPass.block_eq_some_iff.mp hb
    dsimp only at hfits
    omega
  · cases hrun : (commonPass 100).run 4 with
    | error t =>
      rw [hrun] at hflag
      cases hflag
    | ok result =>
      obtain ⟨s', undefined⟩ := result
      rw [hrun] at hflag
      cases hflag
      rw [SymbolPass.published] at hpublished
      refine ⟨s', rfl, ?_, ?_⟩
      · rw [symbolLoop_symboltable hrun, hpublished, hashmapGet_foldl_enter]
        rfl
      · rw [symbolLoop_symboltable hrun, hpublished, hashmapGet_foldl_enter]
        rfl

end Bingos.Modules
