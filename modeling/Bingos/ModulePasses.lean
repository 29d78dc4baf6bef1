import Bingos.ModuleObjects

set_option autoImplicit false

/-! The placement and symbol passes on a well-formed object. -/
namespace Bingos.Modules

open CStrings ByteMemory StringMaps

variable {s' : Loader} {fuel i v : ℕ}

/-! Both passes end on every object, well formed or not. -/
section Every
variable (kmalloc : ℕ → ℕ → ℕ) (ehdr : ℕ)

def placed (s : Loader) : Loader :=
  match sectionLoop ehdr (placeSection kmalloc ehdr) sectionFuel 0 s with
  | .error s' => s'
  | .ok s' => s'

theorem sections_lt (m : Memory) :
    eShentsize m ehdr * eShnum m ehdr ≤ (2 ^ 16 - 1) * (2 ^ 16 - 1) := by
  have hsize : eShentsize m ehdr < 2 ^ 16 := load16_lt m _
  have hnum : eShnum m ehdr < 2 ^ 16 := load16_lt m _
  exact Nat.mul_le_mul (by omega) (by omega)

theorem placeSection_ok (p : ℕ) (s : Loader) : ∃ s', placeSection kmalloc ehdr p s = .ok s' := by
  unfold placeSection
  dsimp only
  split_ifs
  · exact ⟨_, rfl⟩
  · exact ⟨_, rfl⟩

-- A round moves on by the entry size, which can only become 0 together with the bound.
theorem placementLoop_ends {x : ℕ} (s : Loader) (hpos : 0 < fuel) (hfuel : 2 ^ 32 ≤ x + fuel) :
    ∃ s', sectionLoop ehdr (placeSection kmalloc ehdr) fuel x s = .ok s' := by
  induction fuel generalizing x s with
  | zero => omega
  | succ fuel ih =>
    rw [sectionLoop]
    by_cases hmore : x < eShentsize s.mem ehdr * eShnum s.mem ehdr
    · obtain ⟨t, ht⟩ := placeSection_ok kmalloc ehdr (shdrAt s.mem ehdr x) s
      have hbound := sections_lt ehdr s.mem
      have hleft : 0 < fuel := by omega
      rw [if_pos hmore, ht]
      dsimp only
      by_cases hzero : eShentsize t.mem ehdr = 0
      · obtain ⟨k, rfl⟩ := Nat.exists_eq_succ_of_ne_zero hleft.ne'
        rw [sectionLoop, hzero, Nat.zero_mul, if_neg (Nat.not_lt_zero _)]
        exact ⟨t, rfl⟩
      · exact ih t hleft (by omega)
    · rw [if_neg hmore]
      exact ⟨s, rfl⟩

theorem sectionLoop_placed (s : Loader) :
    sectionLoop ehdr (placeSection kmalloc ehdr) sectionFuel 0 s = .ok (placed kmalloc ehdr s) := by
  have hpos : 0 < sectionFuel := Nat.two_pow_pos 32
  have hfuel : 2 ^ 32 ≤ 0 + sectionFuel := Nat.le_of_eq (Nat.zero_add _).symm
  obtain ⟨t, ht⟩ := placementLoop_ends kmalloc ehdr s hpos hfuel
  rw [placed, ht]

variable {kmalloc ehdr} {symstrtab symShdr : ℕ}

theorem readSymbol_mem (sym : ℕ) (s : Loader) (undefined : Bool) :
    (readSymbol kmalloc ehdr symstrtab sym s undefined).1.mem = s.mem := by
  unfold readSymbol
  cases (shdrs s.mem ehdr)[stShndx s.mem sym]? with
  | some p =>
    dsimp only
    split_ifs
    all_goals rfl
  | none =>
    dsimp only
    split_ifs
    all_goals rfl

theorem symbolLoop_ends {t : ℕ} (s : Loader) (undefined : Bool)
    (hsize : shSize s.mem symShdr ≤ 2 ^ 32 - 16) (ht : t < shSize s.mem symShdr + 16)
    (hfuel : shSize s.mem symShdr + 15 < t + 16 * fuel) :
    ∃ r, symbolLoop kmalloc ehdr symstrtab symShdr fuel t s undefined = .ok r := by
  induction fuel generalizing t s undefined with
  | zero => omega
  | succ fuel ih =>
    rw [symbolLoop]
    by_cases hmore : t % 2 ^ 32 < shSize s.mem symShdr
    · rw [if_pos hmore]
      rw [Nat.mod_eq_of_lt (by omega)] at hmore
      apply ih
      · rw [readSymbol_mem]
        exact hsize
      · rw [readSymbol_mem]
        omega
      · rw [readSymbol_mem]
        omega
    · rw [if_neg hmore]
      exact ⟨_, rfl⟩

end Every

/-- The rule for loops over the sections: an invariant that fixes the ELF header and that every
round carries on holds behind the loop. -/
theorem sectionLoop_rule {ehdr off n : ℕ} {body : ℕ → Loader → Except Loader Loader}
    (I : ℕ → Loader → Prop)
    (hheader : ∀ i s, I i s → eShentsize s.mem ehdr = 40 ∧ eShnum s.mem ehdr = n ∧
      eShoff s.mem ehdr = off)
    (hbody : ∀ i < n, ∀ s, I i s → ∃ s', body (ehdr + off + i * 40) s = .ok s' ∧ I (i + 1) s')
    {s : Loader} (hs : I i s) (hi : i ≤ n) (hfuel : n - i < fuel) :
    ∃ s', sectionLoop ehdr body fuel (i * 40) s = .ok s' ∧ I n s' := by
  induction fuel generalizing i s with
  | zero => omega
  | succ fuel ih =>
    obtain ⟨hsize, hnum, hoff⟩ := hheader i s hs
    rw [sectionLoop, hsize, hnum]
    rcases Nat.eq_or_lt_of_le hi with heq | hlt
    · subst heq
      exact ⟨s, by rw [if_neg (by omega)], hs⟩
    · obtain ⟨s', hok, hs'⟩ := hbody i hlt s hs
      rw [if_pos (by omega), shdrAt, hoff, hok]
      have hnext := ih hs' hlt (by omega)
      rw [Nat.succ_mul] at hnext
      simpa only [(hheader _ _ hs').1] using hnext

/-- The allocator's contract for an object: 32-bit addresses, and for its `NOBITS` sections
memory outside the object. -/
structure Allocates (kmalloc : ℕ → ℕ → ℕ) (m : Memory) (ehdr length : ℕ) : Prop where
  lt : ∀ n size, kmalloc n size < 2 ^ 32
  fresh : ∀ i < eShnum m ehdr, shType m (sec m ehdr i) = shtNobits →
    ∀ n, ∀ t < shSize m (sec m ehdr i), ∀ o < length,
      (kmalloc n (shSize m (sec m ehdr i)) + t) % 2 ^ 32 ≠ ehdr + o

section Placement

variable (kmalloc : ℕ → ℕ → ℕ) (m : Memory) (ehdr : ℕ)

def nobitsBefore : ℕ → ℕ
  | 0 => 0
  | i + 1 => nobitsBefore i + if shType m (sec m ehdr i) = shtNobits then 1 else 0

/-- Where section `i` is placed: in the object itself, or in allocated memory. -/
def sectionAddress (first i : ℕ) : ℕ :=
  if shType m (sec m ehdr i) = shtNobits then
    kmalloc (first + nobitsBefore m ehdr i) (shSize m (sec m ehdr i))
  else (ehdr + shOffset m (sec m ehdr i)) % 2 ^ 32

structure Placing (s : Loader) (length i : ℕ) (s' : Loader) : Prop where
  same : ∀ o < length, (∀ j < i, ¬ AddrField s.mem ehdr j o) → s'.mem (ehdr + o) = s.mem (ehdr + o)
  shAddr : ∀ j < i, shAddr s'.mem (sec s.mem ehdr j) =
    sectionAddress kmalloc s.mem ehdr s.allocations j
  allocations : s'.allocations = s.allocations + nobitsBefore s.mem ehdr i
  symboltable : s'.symboltable = s.symboltable

theorem sec_addr (i : ℕ) : sec m ehdr i + 12 = ehdr + (eShoff m ehdr + 40 * i + 12) := by
  rw [sec, shdrAt]
  omega

variable {kmalloc ehdr} {s : Loader} {length symtab strtab : ℕ}
  (hw : LaidOut s.mem ehdr length symtab strtab)
include hw

theorem Placing.unchanged (hp : Placing kmalloc ehdr s length i s')
    (hi : i ≤ eShnum s.mem ehdr) : Unchanged s.mem ehdr s'.mem := fun o hfrozen hfield =>
  hp.same o (hw.frozen_lt hfrozen) fun j hj => hfield j (by omega)

theorem Placing.write (hp : Placing kmalloc ehdr s length i s')
    (hi : i < eShnum s.mem ehdr) (hv : v < 2 ^ 32)
    (haddr : v = sectionAddress kmalloc s.mem ehdr s.allocations i) {t : Loader}
    (hmem : ∀ o < length, t.mem (ehdr + o) =
      store32 s'.mem (sec s.mem ehdr i + 12) v (ehdr + o))
    (halloc : t.allocations = s.allocations + nobitsBefore s.mem ehdr (i + 1))
    (hsym : t.symboltable = s'.symboltable) : Placing kmalloc ehdr s length (i + 1) t := by
  have hfits := hw.fits
  have hend := hw.headers_end
  have hat := sec_addr s.mem ehdr i
  have hload : ∀ j < eShnum s.mem ehdr, Modules.shAddr t.mem (sec s.mem ehdr j) =
      load32 (store32 s'.mem (sec s.mem ehdr i + 12) v) (sec s.mem ehdr j + 12) := by
    intro j hj
    rw [Modules.shAddr, load32, load32, sec_addr s.mem ehdr j]
    congr 1
    refine List.map_congr_left fun k hk => ?_
    rw [Nat.mod_eq_of_lt (by have := List.mem_range.mp hk; omega), Nat.add_assoc]
    exact hmem _ (by have := List.mem_range.mp hk; omega)
  refine ⟨fun o ho hfield => ?_, fun j hj => ?_, halloc, hsym.trans hp.symboltable⟩
  · have hnot := hfield i (Nat.lt_succ_self i)
    rw [AddrField] at hnot
    rw [hmem o ho, store32, store_off, hp.same o ho fun j hj => hfield j (by omega)]
    · intro k hk
      rw [length_toLE] at hk
      rw [hat, Nat.mod_eq_of_lt (by omega)]
      omega
    · omega
  · rw [hload j (by omega)]
    rcases Nat.lt_succ_iff_lt_or_eq.mp hj with hlt | rfl
    · rw [load32, store32, load_store_apart, ← load32, ← Modules.shAddr, hp.shAddr j hlt]
      intro k hk k' hk'
      rw [length_toLE] at hk
      rw [hat, sec_addr s.mem ehdr j, Nat.mod_eq_of_lt (by omega), Nat.mod_eq_of_lt (by omega)]
      omega
    · rw [load32_store32, ← haddr, Nat.mod_eq_of_lt hv]

variable (hka : Allocates kmalloc s.mem ehdr length)
include hka

theorem placeSection_step (hp : Placing kmalloc ehdr s length i s') (hi : i < eShnum s.mem ehdr) :
    ∃ t, placeSection kmalloc ehdr (sec s.mem ehdr i) s' = .ok t ∧
      Placing kmalloc ehdr s length (i + 1) t := by
  have hk := hp.unchanged hw hi.le
  rw [placeSection, hk.shType hw hi, hk.shSize hw hi, hk.shOffset hw hi]
  by_cases hn : shType s.mem (sec s.mem ehdr i) = shtNobits
  · rw [if_pos hn]
    refine ⟨_, rfl, hp.write hw hi (hka.lt s'.allocations
      (shSize s.mem (sec s.mem ehdr i))) ?_ (fun o ho => ?_) ?_ rfl⟩
    · rw [sectionAddress, if_pos hn, hp.allocations]
    · have hfits := hw.fits
      refine store_off (fun k hk => ?_) (by omega)
      exact hka.fresh i hi hn _ k (by simpa using hk) o ho
    · rw [nobitsBefore, if_pos hn, hp.allocations, Nat.add_assoc]
  · rw [if_neg hn]
    refine ⟨_, rfl, hp.write hw hi (Nat.mod_lt _ (by decide)) ?_ (fun o ho => rfl) ?_ rfl⟩
    · rw [sectionAddress, if_neg hn]
    · rw [nobitsBefore, if_neg hn]
      exact hp.allocations

theorem placement_pass (hfuel : eShnum s.mem ehdr < fuel) :
    ∃ t, sectionLoop ehdr (placeSection kmalloc ehdr) fuel 0 s = .ok t ∧
      Placing kmalloc ehdr s length (eShnum s.mem ehdr) t := by
  have hstart : Placing kmalloc ehdr s length 0 s :=
    ⟨fun _ _ _ => rfl, fun j hj => absurd hj (Nat.not_lt_zero j), rfl, rfl⟩
  have hheader : ∀ i t, (i ≤ eShnum s.mem ehdr ∧ Placing kmalloc ehdr s length i t) →
      eShentsize t.mem ehdr = 40 ∧ eShnum t.mem ehdr = eShnum s.mem ehdr ∧
        eShoff t.mem ehdr = eShoff s.mem ehdr := by
    rintro i t ⟨hi, hp⟩
    have hk := hp.unchanged hw hi
    exact ⟨hk.eShentsize hw, hk.eShnum hw, hk.eShoff hw⟩
  have hbody : ∀ i < eShnum s.mem ehdr, ∀ t,
      (i ≤ eShnum s.mem ehdr ∧ Placing kmalloc ehdr s length i t) →
        ∃ t', placeSection kmalloc ehdr (ehdr + eShoff s.mem ehdr + i * 40) t = .ok t' ∧
          (i + 1 ≤ eShnum s.mem ehdr ∧ Placing kmalloc ehdr s length (i + 1) t') := by
    rintro i hi t ⟨-, hp⟩
    obtain ⟨t', hok, hp'⟩ := placeSection_step hw hka hp hi
    exact ⟨t', hok, hi, hp'⟩
  obtain ⟨t, hok, -, hp⟩ := sectionLoop_rule
    (fun i t => i ≤ eShnum s.mem ehdr ∧ Placing kmalloc ehdr s length i t)
    hheader hbody ⟨Nat.zero_le _, hstart⟩ (Nat.zero_le _) hfuel
  exact ⟨t, by simpa using hok, hp⟩

end Placement

section Find

variable {m : Memory} {ehdr length symtab strtab : ℕ}

theorem foldl_last {P : ℕ → Prop} [DecidablePred P] {f : ℕ → ℕ} {l : List ℕ}
    (hall : ∀ x ∈ l, P x → f x = v) {init : ℕ} (hsome : (∃ x ∈ l, P x) ∨ init = v) :
    l.foldl (fun acc x => if P x then f x else acc) init = v := by
  induction l generalizing init with
  | nil => simpa using hsome
  | cons x l ih =>
    rw [List.foldl_cons]
    apply ih fun y hy => hall y (List.mem_cons_of_mem _ hy)
    by_cases hx : P x
    · exact Or.inr (by rw [if_pos hx, hall x List.mem_cons_self hx])
    · rw [if_neg hx]
      refine hsome.imp_left ?_
      rintro ⟨y, hy, hPy⟩
      rcases List.mem_cons.mp hy with rfl | hy
      · exact absurd hPy hx
      · exact ⟨y, hy, hPy⟩

variable (hw : LaidOut m ehdr length symtab strtab)
include hw

theorem LaidOut.mem_shdrs {p : ℕ} : p ∈ shdrs m ehdr ↔ ∃ i < eShnum m ehdr, p = sec m ehdr i := by
  rw [shdrs, hw.shentsize, if_neg (by decide), List.mem_map]
  simp only [List.mem_range, sec, eq_comm]

theorem LaidOut.offset_eq (hi : i < eShnum m ehdr) (hb : HasBytes m ehdr i)
    (hsize : 0 < shSize m (sec m ehdr i)) :
    (ehdr + shOffset m (sec m ehdr i)) % 2 ^ 32 = ehdr + shOffset m (sec m ehdr i) := by
  have hinside := (hw.inside i hi hb).2.1
  have hfits := hw.fits
  exact Nat.mod_eq_of_lt (by omega)

theorem findShstrtab_ne_zero : findShstrtab m ehdr ≠ 0 := by
  have hk : Unchanged m ehdr m := fun _ _ _ => rfl
  have hnull := hw.nonnull
  obtain ⟨htype, hsize⟩ := hw.shstrtab
  simp only [findShstrtab, hk.shdrs_getElem hw, if_pos hw.shstrndx]
  rw [hw.offset_eq hw.shstrndx (TableType.hasBytes (Or.inr (Or.inl htype))) hsize]
  omega

theorem findSymstrtab_eq :
    findSymstrtab m ehdr (findShstrtab m ehdr) = ehdr + shOffset m (sec m ehdr strtab) := by
  apply foldl_last
  · intro p hp hstr
    obtain ⟨i, hi, rfl⟩ := hw.mem_shdrs.mp hp
    rw [(hw.strtab_iff i hi).mp hstr]
    exact hw.offset_eq hw.strtab_lt (TableType.hasBytes (Or.inr (Or.inl hw.strtab_type)))
      hw.strtab_end.1
  · exact Or.inl ⟨_, hw.mem_shdrs.mpr ⟨strtab, hw.strtab_lt, rfl⟩,
      (hw.strtab_iff strtab hw.strtab_lt).mpr rfl⟩

theorem findSymShdr_eq : findSymShdr m ehdr = sec m ehdr symtab := by
  refine foldl_last (f := fun p => p) ?_ ?_
  · intro p hp htype
    obtain ⟨i, hi, rfl⟩ := hw.mem_shdrs.mp hp
    rw [(hw.symtab_iff i hi).mp htype]
  · exact Or.inl ⟨_, hw.mem_shdrs.mpr ⟨symtab, hw.symtab_lt, rfl⟩, hw.symtab_type⟩

end Find

structure Placed (m : Memory) (ehdr : ℕ) (addr : ℕ → ℕ) (mem : Memory) : Prop where
  unchanged : Unchanged m ehdr mem
  shAddr : ∀ i < eShnum m ehdr, shAddr mem (sec m ehdr i) = addr i

section Symbols

variable {kmalloc : ℕ → ℕ → ℕ} {m : Memory} {ehdr length symtab strtab : ℕ} {addr : ℕ → ℕ}

/-- The maps after `j` rounds of the symbol loop that started in `t`: defined global symbols are
bound to their place, and other names to what they were. -/
structure Bound (m : Memory) (ehdr symtab strtab : ℕ) (addr : ℕ → ℕ) (t : Loader) (j : ℕ)
    (s : Loader) : Prop where
  mem : s.mem = t.mem
  other : ∀ name, (∀ i < j, IsGlobal m ehdr symtab i → symName m ehdr symtab strtab i ≠ name) →
    hashmapGet s.symboltable name = hashmapGet t.symboltable name
  bound : ∀ i < j, IsGlobal m ehdr symtab i →
    stShndx m (symAt m ehdr symtab i) < eShnum m ehdr →
    hashmapGet s.symboltable (symName m ehdr symtab strtab i) =
      if stShndx m (symAt m ehdr symtab i) = 0 then
        hashmapGet t.symboltable (symName m ehdr symtab strtab i)
      else (addr (stShndx m (symAt m ehdr symtab i)) + stValue m (symAt m ehdr symtab i)) % 2 ^ 32

variable (hw : WellFormed m ehdr length symtab strtab) {t s : Loader} {j : ℕ}
  (hj : j < symbolCount m ehdr symtab) (hb : Bound m ehdr symtab strtab addr t j s)
include hw hj hb

theorem Bound.fresh (hg : IsGlobal m ehdr symtab j) :
    hashmapGet s.symboltable (symName m ehdr symtab strtab j) =
      hashmapGet t.symboltable (symName m ehdr symtab strtab j) :=
  hb.other _ fun i hi hgi => hw.global_distinct i (by omega) j hj (by omega) hgi hg

theorem Bound.skip (h : IsGlobal m ehdr symtab j →
    stShndx m (symAt m ehdr symtab j) < eShnum m ehdr → stShndx m (symAt m ehdr symtab j) = 0) :
    Bound m ehdr symtab strtab addr t (j + 1) s := by
  refine ⟨hb.mem, fun name hname => hb.other name fun i hi => hname i (by omega), ?_⟩
  intro i hi hg hlt
  rcases Nat.lt_succ_iff_lt_or_eq.mp hi with hij | rfl
  · exact hb.bound i hij hg hlt
  · rw [if_pos (h hg hlt), hb.fresh hw hj hg]

theorem Bound.bind (hg : IsGlobal m ehdr symtab j)
    (hv : stShndx m (symAt m ehdr symtab j) < eShnum m ehdr →
      stShndx m (symAt m ehdr symtab j) ≠ 0 ∧
        v = (addr (stShndx m (symAt m ehdr symtab j)) + stValue m (symAt m ehdr symtab j)) % 2 ^ 32)
    (hmem : s'.mem = s.mem)
    (hget : ∀ name, hashmapGet s'.symboltable name =
      if name = symName m ehdr symtab strtab j then v else hashmapGet s.symboltable name) :
    Bound m ehdr symtab strtab addr t (j + 1) s' := by
  refine ⟨hmem.trans hb.mem, fun name hname => ?_, fun i hi hgi hlt => ?_⟩
  · rw [hget, if_neg (fun h => hname j (Nat.lt_succ_self j) hg h.symm)]
    exact hb.other name fun i hi => hname i (by omega)
  · rw [hget]
    rcases Nat.lt_succ_iff_lt_or_eq.mp hi with hij | rfl
    · rw [if_neg (hw.global_distinct i (by omega) j hj (by omega) hgi hg)]
      exact hb.bound i hij hgi hlt
    · obtain ⟨hne, heq⟩ := hv hlt
      rw [if_pos rfl, if_neg hne, heq]

omit hj hb in
theorem symstrtab_name (hk : Unchanged m ehdr s.mem) (hj : j < symbolCount m ehdr symtab) :
    nameAt s.mem (ehdr + shOffset m (sec m ehdr strtab) + stName s.mem (symAt m ehdr symtab j)) =
      symName m ehdr symtab strtab j := by
  rw [hk.stName hw.toLaidOut hj, hk.symName hw.toLaidOut hj]

theorem readSymbol_step (kmalloc : ℕ → ℕ → ℕ) (hp : Placed m ehdr addr t.mem)
    (hpresent : ∀ j < symbolCount m ehdr symtab, IsGlobal m ehdr symtab j →
      stShndx m (symAt m ehdr symtab j) = 0 →
        hashmapGet t.symboltable (symName m ehdr symtab strtab j) ≠ 0) :
    let r := readSymbol kmalloc ehdr (ehdr + shOffset m (sec m ehdr strtab))
      (symAt m ehdr symtab j) s false
    Bound m ehdr symtab strtab addr t (j + 1) r.1 ∧ r.2 = false := by
  have hk : Unchanged m ehdr s.mem := by
    rw [hb.mem]
    exact hp.unchanged
  have hname := symstrtab_name (s := s) hw hk hj
  have hglobal : (stName s.mem (symAt m ehdr symtab j) ≠ 0 ∧
      elf32StBind (stInfo s.mem (symAt m ehdr symtab j)) = stbGlobal) ↔
        IsGlobal m ehdr symtab j := by
    rw [hk.stName hw.toLaidOut hj, hk.stInfo hw.toLaidOut hj]
    exact ⟨fun h => h.2, fun h => ⟨hw.global_named j hj h, h⟩⟩
  simp only [readSymbol, hname, hk.stShndx hw.toLaidOut hj, hk.stValue hw.toLaidOut hj,
    hk.shdrs_getElem hw.toLaidOut, hglobal]
  by_cases hg : IsGlobal m ehdr symtab j
  · rw [if_pos hg]
    by_cases hundef : stShndx m (symAt m ehdr symtab j) = 0
    · rw [if_pos hundef]
      refine ⟨hb.skip hw hj fun _ _ => hundef, ?_⟩
      rw [hb.fresh hw hj hg]
      simpa using hpresent j hj hg hundef
    · rw [if_neg hundef]
      by_cases hlt : stShndx m (symAt m ehdr symtab j) < eShnum m ehdr
      · simp only [if_pos hlt]
        refine ⟨hb.bind hw hj hg (fun _ => ⟨hundef, rfl⟩) rfl fun name => ?_, trivial⟩
        rw [bindSymbol, hashmapGet_hashmapSet, hb.mem, hp.shAddr _ hlt]
      · simp only [if_neg hlt]
        split_ifs with hcommon
        · exact ⟨hb.bind hw hj hg (fun h => absurd h hlt) rfl fun name =>
            hashmapGet_hashmapSet _ _ _ _, rfl⟩
        · exact ⟨hb.skip hw hj fun _ h => absurd h hlt, rfl⟩
  · rw [if_neg hg]
    exact ⟨hb.skip hw hj fun h => absurd h hg, rfl⟩

omit hj hb in
theorem symbolLoop_spec (hp : Placed m ehdr addr t.mem)
    (hpresent : ∀ j < symbolCount m ehdr symtab, IsGlobal m ehdr symtab j →
      stShndx m (symAt m ehdr symtab j) = 0 →
        hashmapGet t.symboltable (symName m ehdr symtab strtab j) ≠ 0)
    {j : ℕ} {s : Loader} (hb : Bound m ehdr symtab strtab addr t j s)
    (hj : j ≤ symbolCount m ehdr symtab) (hfuel : symbolCount m ehdr symtab - j < fuel) :
    ∃ s', symbolLoop kmalloc ehdr (ehdr + shOffset m (sec m ehdr strtab)) (sec m ehdr symtab) fuel
        (16 * j) s false = .ok (s', false) ∧
      Bound m ehdr symtab strtab addr t (symbolCount m ehdr symtab) s' := by
  have hsize := hw.symtab_size
  have hinside := (hw.inside symtab hw.symtab_lt
    (TableType.hasBytes (Or.inl hw.symtab_type))).2.1
  have hfits := hw.fits
  have hnull := hw.nonnull
  have hcount : symbolCount m ehdr symtab = shSize m (sec m ehdr symtab) / 16 := rfl
  induction fuel generalizing j s with
  | zero => omega
  | succ fuel ih =>
    have hk : Unchanged m ehdr s.mem := by
      rw [hb.mem]
      exact hp.unchanged
    rw [symbolLoop, hk.shSize hw.toLaidOut hw.symtab_lt, hk.shOffset hw.toLaidOut hw.symtab_lt,
      Nat.mod_eq_of_lt (by omega)]
    rcases Nat.eq_or_lt_of_le hj with heq | hlt
    · subst heq
      exact ⟨s, by rw [if_neg (by omega)], hb⟩
    · obtain ⟨hb', hundef⟩ := readSymbol_step hw hlt hb kmalloc hp hpresent
      rw [if_pos (by omega)]
      obtain ⟨s', hok, hdone⟩ := ih hb' hlt (by omega)
      refine ⟨s', ?_, hdone⟩
      rw [Nat.mul_succ] at hok
      rw [← hok]
      simp only [symAt] at hundef ⊢
      rw [hundef]

end Symbols

end Bingos.Modules
