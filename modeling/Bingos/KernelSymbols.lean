import Bingos.HashmapRefinement
import Bingos.ModuleModel

set_option autoImplicit false

/-! The kernel's own symbols: `modules_init` walks the table that `generate_symbols.py` lays out
and enters every symbol in the symbol table. -/
namespace Bingos.KernelSymbols
open CStrings ByteMemory HashmapMemory Modules PointerChains
open StringMaps (lastValue lastValue_concat)

/-- An entry as it is assembled: `.long` of the address and `.asciz` of the name. -/
def entry (p : Bytes × ℕ) : Bytes := toLE 4 p.2 ++ (p.1 ++ [0])

def layout (pairs : List (Bytes × ℕ)) : Bytes := pairs.flatMap entry

def symboltableHashmapSize : ℕ := 200

def startName : Bytes :=
  [107, 101, 114, 110, 101, 108, 95, 115, 121, 109, 98, 111, 108, 115, 95, 115, 116, 97, 114, 116]

def endName : Bytes :=
  [107, 101, 114, 110, 101, 108, 95, 115, 121, 109, 98, 111, 108, 115, 95, 101, 110, 100]

section Walk
variable (m : Memory) (malloc : Table → ℕ) (kernelSymbolsEnd : ℕ)

/-- The loop of `modules_init` with the pairs it visits. The block `malloc t` is the one a new
entry of the map gets. -/
def symbolWalk : ℕ → ℕ → Table → Option (List (Bytes × ℕ) × Table)
  | 0, _, _ => none
  | fuel + 1, k, t =>
    if k < kernelSymbolsEnd then
      let name := nameAt m (k + 4)
      match hashmapSet (malloc t) fuel t (name ++ [0]) (load32 m k) with
      | none => none
      | some (_, t') =>
        (symbolWalk fuel ((k + 4 + name.length + 1) % 2 ^ 32) t').map fun r =>
          ((name, load32 m k) :: r.1, r.2)
    else some ([], t)

def modulesInit (heap : ℕ → Entry) (kernelSymbolsStart fuel : ℕ) :
    Option (List (Bytes × ℕ) × Table) :=
  match symbolWalk m malloc kernelSymbolsEnd fuel kernelSymbolsStart
      (hashmapCreate heap symboltableHashmapSize) with
  | none => none
  | some (visited, t) =>
    match hashmapSet (malloc t) fuel t (startName ++ [0]) kernelSymbolsStart with
    | none => none
    | some (_, t₁) =>
      match hashmapSet (malloc t₁) fuel t₁ (endName ++ [0]) kernelSymbolsEnd with
      | none => none
      | some (_, t₂) => some (visited, t₂)

end Walk

variable {pairs : List (Bytes × ℕ)} {t : Table} {k : ℕ}

section Layout

theorem length_entry (p : Bytes × ℕ) : (entry p).length = 4 + p.1.length + 1 := by
  rw [entry, List.length_append, List.length_append, length_toLE, List.length_singleton]
  omega

theorem load_layout_cons {m : Memory} {p : Bytes × ℕ}
    (h : load m k (layout (p :: pairs)).length = layout (p :: pairs)) :
    load m k 4 = toLE 4 p.2 ∧ load m (k + 4) (p.1 ++ [0]).length = p.1 ++ [0] ∧
      load m (k + (entry p).length) (layout pairs).length = layout pairs := by
  have hsplit : layout (p :: pairs) = entry p ++ layout pairs := List.flatMap_cons
  refine ⟨?_, ?_, ?_⟩
  · have haddr := load_part (A := []) (x := toLE 4 p.2) (B := p.1 ++ [0] ++ layout pairs)
      (h.trans (by rw [hsplit, entry, List.append_assoc, List.nil_append]))
    rw [length_toLE] at haddr
    exact haddr
  · have hname := load_part (A := toLE 4 p.2) (x := p.1 ++ [0]) (B := layout pairs)
      (h.trans (by rw [hsplit, entry, List.append_assoc]))
    rw [length_toLE] at hname
    exact hname
  · exact load_part (B := []) (h.trans (by rw [hsplit, List.append_nil]))

theorem cstr_nul {name : Bytes} (h : 0 ∉ name) : cstr (name ++ [0]) 0 = name := cstr_of_drop h rfl

end Layout

section Decoding
variable {m : Memory} {malloc : Table → ℕ} {kernelSymbolsEnd : ℕ} {calls : List Call}

def Fresh (malloc : Table → ℕ) : Prop := ∀ t, malloc t ≠ 0 ∧ malloc t ∉ t.live

theorem hashmapSet_kept (hfresh : Fresh malloc)
    (h : Kept symboltableHashmapSize calls t) {key : Bytes} (hkey : 0 ∈ key) (value : ℕ) :
    ∃ out t', (∀ fuel, t.live.card ≤ fuel →
        hashmapSet (malloc t) fuel t key value = some (out, t')) ∧
      Kept symboltableHashmapSize (calls ++ [.set key value]) t' := by
  obtain ⟨hn0, hn⟩ := hfresh t
  have hpos : 0 < symboltableHashmapSize := by decide
  have hmap := h.isMap hpos (by decide)
  obtain ⟨t', ht'⟩ := hmap.set key value (malloc t) t.live.card hkey hn0 hn le_rfl
  exact ⟨_, t', fun fuel hfuel => hashmapSet_mono hfuel ht',
    kept_step hpos h (.set hkey hn0 hn ht')⟩

def setCall (p : Bytes × ℕ) : Call := .set (p.1 ++ [0]) p.2

-- The induction is on the pairs still to come, with the calls made so far as they are.
theorem symbolWalk_eq (hfresh : Fresh malloc) (hpairs : ∀ p ∈ pairs, 0 ∉ p.1 ∧ p.2 < 2 ^ 32)
    (hlayout : load m k (layout pairs).length = layout pairs)
    (hend : k + (layout pairs).length = kernelSymbolsEnd) (hfits : kernelSymbolsEnd < 2 ^ 32)
    (h : Kept symboltableHashmapSize calls t) :
    ∃ t' rounds, (∀ fuel, rounds ≤ fuel →
        symbolWalk m malloc kernelSymbolsEnd fuel k t = some (pairs, t')) ∧
      Kept symboltableHashmapSize (calls ++ pairs.map setCall) t' := by
  induction pairs generalizing k t calls with
  | nil =>
    refine ⟨t, 1, fun fuel hfuel => ?_, by rwa [List.map_nil, List.append_nil]⟩
    obtain ⟨fuel, rfl⟩ := Nat.exists_eq_succ_of_ne_zero (Nat.ne_zero_of_lt hfuel)
    have hstop : ¬ k < kernelSymbolsEnd := by
      rw [← hend]
      simp [layout]
    rw [symbolWalk, if_neg hstop]
  | cons p pairs ih =>
    obtain ⟨hname, haddr⟩ := hpairs p List.mem_cons_self
    obtain ⟨hload4, hloadName, hrest⟩ := load_layout_cons hlayout
    have hlen : (layout (p :: pairs)).length = (entry p).length + (layout pairs).length := by
      rw [layout, List.flatMap_cons, List.length_append]
      rfl
    have hentry := length_entry p
    have hnameAt : nameAt m (k + 4) = p.1 := by
      rw [nameAt, loadCString_eq hname hloadName (by omega), Option.getD_some]
    have hword : load32 m k = p.2 := by
      rw [load32, hload4, ofLE_toLE_four, Nat.mod_eq_of_lt haddr]
    obtain ⟨out, t₁, hset, hkept⟩ :=
      hashmapSet_kept hfresh h (List.mem_append_right p.1 (List.mem_singleton_self 0)) p.2
    obtain ⟨t', rounds, hwalk, hkept'⟩ :=
      ih (fun q hq => hpairs q (List.mem_cons_of_mem _ hq)) hrest (by omega) hkept
    refine ⟨t', max rounds t.live.card + 1, fun fuel hfuel => ?_, ?_⟩
    · obtain ⟨fuel, rfl⟩ := Nat.exists_eq_succ_of_ne_zero (Nat.ne_zero_of_lt hfuel)
      have hmore : k < kernelSymbolsEnd := by omega
      have hnext : (k + 4 + p.1.length + 1) % 2 ^ 32 = k + (entry p).length := by
        rw [Nat.mod_eq_of_lt (by omega)]
        omega
      rw [symbolWalk, if_pos hmore]
      dsimp only
      rw [hnameAt, hword, hset fuel (by omega)]
      dsimp only
      rw [hnext, hwalk fuel (by omega), Option.map_some]
    · rw [List.map_cons, ← List.singleton_append, ← List.append_assoc]
      exact hkept'

theorem contents_pairs (hpairs : ∀ p ∈ pairs, 0 ∉ p.1) (name : Bytes) :
    contents (pairs.map setCall) name = (lastValue pairs name).getD 0 := by
  induction pairs using List.reverseRecOn with
  | nil => rfl
  | append_singleton pairs p ih =>
    have hp : 0 ∉ p.1 := hpairs p (List.mem_append_right _ (List.mem_singleton_self p))
    rw [List.map_append, List.map_singleton, setCall, contents_set, cstr_nul hp,
      ih fun q hq => hpairs q (List.mem_append_left _ hq), lastValue_concat]
    by_cases hname : name = p.1
    · rw [if_pos hname, if_pos hname, Option.getD_some]
    · rw [if_neg hname, if_neg hname]

/-- `modules_init` visits exactly the pairs that are laid out, in order, and stops at the end of
the table. A lookup is then the last address listed with the name, or 0. -/
theorem kernel_symbols_decoded (hfresh : Fresh malloc) (heap : ℕ → Entry) {pairs : List (Bytes × ℕ)}
    {kernelSymbolsStart : ℕ} (hpairs : ∀ p ∈ pairs, 0 ∉ p.1 ∧ p.2 < 2 ^ 32)
    (hlayout : load m kernelSymbolsStart (layout pairs).length = layout pairs)
    (hend : kernelSymbolsStart + (layout pairs).length = kernelSymbolsEnd)
    (hfits : kernelSymbolsEnd < 2 ^ 32) :
    ∃ t rounds, ∀ fuel, rounds ≤ fuel →
      modulesInit m malloc kernelSymbolsEnd heap kernelSymbolsStart fuel = some (pairs, t) ∧
      ∀ key, 0 ∈ key → cstr key 0 ≠ startName → cstr key 0 ≠ endName →
        hashmapGet fuel t key = some ((lastValue pairs (cstr key 0)).getD 0) := by
  have hsize : symboltableHashmapSize < 2 ^ 30 := by decide
  have hcreate := kept_create heap hsize
  have hstartKey : 0 ∈ startName ++ [0] := by decide
  have hendKey : 0 ∈ endName ++ [0] := by decide
  obtain ⟨t, rounds, hwalk, hkept⟩ := symbolWalk_eq hfresh hpairs hlayout hend hfits hcreate
  obtain ⟨out₁, t₁, hset₁, hkept₁⟩ :=
    hashmapSet_kept hfresh hkept hstartKey kernelSymbolsStart
  obtain ⟨out₂, t₂, hset₂, hkept₂⟩ :=
    hashmapSet_kept hfresh hkept₁ hendKey kernelSymbolsEnd
  refine ⟨t₂, rounds + t.live.card + t₁.live.card + t₂.live.card, fun fuel hfuel => ⟨?_, ?_⟩⟩
  · rw [modulesInit, hwalk fuel (by omega)]
    dsimp only
    rw [hset₁ fuel (by omega)]
    dsimp only
    rw [hset₂ fuel (by omega)]
  · intro key hkey hstart hend
    have hmap := hkept₂.isMap (by decide) (by decide)
    rw [hmap.get key fuel hkey (by omega), contents_set, cstr_nul (by decide), if_neg hend,
      contents_set, cstr_nul (by decide), if_neg hstart, List.nil_append,
      contents_pairs fun p hp => (hpairs p hp).1]

end Decoding

def nextBlock (t : Table) : ℕ := firstAbove t.live

theorem fresh_nextBlock : Fresh nextBlock := fun t =>
  ⟨firstAbove_ne_zero t.live, firstAbove_notMem t.live⟩

def samplePairs : List (Bytes × ℕ) := [([97], 0x100000), ([98], 0x100200), ([97], 0x100400)]

def sampleTable (a : ℕ) : UInt8 := (layout samplePairs).getD (a - 0x1000) 0

theorem kernel_symbols_sample :
    ∃ t rounds, ∀ fuel, rounds ≤ fuel →
      modulesInit sampleTable nextBlock 0x1012 (fun _ => ⟨[], 0, 0⟩) 0x1000 fuel =
        some (samplePairs, t) ∧
      hashmapGet fuel t [97, 0] = some 0x100400 ∧ hashmapGet fuel t [99, 0] = some 0 := by
  have hpairs : ∀ p ∈ samplePairs, 0 ∉ p.1 ∧ p.2 < 2 ^ 32 := by decide
  have hlayout : load sampleTable 0x1000 (layout samplePairs).length = layout samplePairs := by
    decide +kernel
  have hend : 0x1000 + (layout samplePairs).length = 0x1012 := rfl
  obtain ⟨t, rounds, h⟩ := kernel_symbols_decoded fresh_nextBlock (fun _ => ⟨[], 0, 0⟩) hpairs
    hlayout hend (by decide)
  refine ⟨t, rounds, fun fuel hfuel => ?_⟩
  obtain ⟨hvisited, hget⟩ := h fuel hfuel
  exact ⟨hvisited, hget [97, 0] (by decide) (by decide) (by decide),
    hget [99, 0] (by decide) (by decide) (by decide)⟩

end Bingos.KernelSymbols
