import Bingos.ModulePasses

set_option autoImplicit false

/-! The relocation pass of `module_load` against the relocations of the object. -/
namespace Bingos.Modules

open CStrings ByteMemory StringMaps

section Relocations

variable (m : Memory) (ehdr symtab strtab : ℕ) (addr : ℕ → ℕ)

structure IsRel (i k : ℕ) : Prop where
  section_lt : i < eShnum m ehdr
  type : shType m (sec m ehdr i) = shtRel
  entry_lt : k < shSize m (sec m ehdr i) / 8

def boundAddress (st : Hashmap) (j : ℕ) : ℕ :=
  if IsSection m ehdr symtab j then addr (stShndx m (symAt m ehdr symtab j))
  else hashmapGet st (symName m ehdr symtab strtab j)

/-- The load address of a symbol: of its section, of the symbol elsewhere in the kernel, of its
place in its section, of the storage the symbol pass bound it to, or its absolute value. -/
def loadAddress (before st : Hashmap) (j : ℕ) : ℕ :=
  if IsSection m ehdr symtab j then addr (stShndx m (symAt m ehdr symtab j))
  else if stShndx m (symAt m ehdr symtab j) = 0 then
    hashmapGet before (symName m ehdr symtab strtab j)
  else if stShndx m (symAt m ehdr symtab j) < eShnum m ehdr then
    (addr (stShndx m (symAt m ehdr symtab j)) + stValue m (symAt m ehdr symtab j)) % 2 ^ 32
  else if stShndx m (symAt m ehdr symtab j) = shnCommon then
    hashmapGet st (symName m ehdr symtab strtab j)
  else stValue m (symAt m ehdr symtab j)

def relocatedWord (type A S P : ℕ) : ℕ :=
  if type = 1 then (A + S) % 2 ^ 32 else (A + S + (2 ^ 32 - P)) % 2 ^ 32

def writtenWord (st : Hashmap) (i k : ℕ) : ℕ :=
  relocatedWord (elf32RType (fullInfo m ehdr i k)) (load32 m (place m ehdr i k))
    (boundAddress m ehdr symtab strtab addr st (elf32RSym (fullInfo m ehdr i k) % 256))
    (place m ehdr i k)

end Relocations

variable {s t : Loader} {i k n fuel j : ℕ}

section Pass

variable {m : Memory} {ehdr length symtab strtab : ℕ} {addr : ℕ → ℕ}

theorem load16_eq_mod (mem : Memory) (a : ℕ) : load16 mem a = load32 mem a % 65536 := by
  have hsplit : load mem a 4 = load mem a 2 ++ load mem (a + 2) 2 := load_append mem a 2 2
  have hlt := ofLE_lt (load mem a 2)
  rw [length_load] at hlt
  rw [load16, load32, hsplit, ofLE_append, length_load]
  omega

variable (hw : WellFormed m ehdr length symtab strtab)
include hw

theorem WellFormed.place_eq (h : IsRel m ehdr i k) :
    ∃ o, place m ehdr i k = ehdr + o ∧ o + 4 ≤ length ∧
      ∀ o', Frozen m ehdr o' → o' < o ∨ o + 4 ≤ o' := by
  obtain ⟨-, htarget, hbytes, hnot⟩ := hw.rel_section i h.section_lt h.type
  have hoffset := (hw.rel_entry i h.section_lt h.type k h.entry_lt).1
  have hinside := hw.inside _ htarget hbytes
  refine ⟨shOffset m (sec m ehdr (target m ehdr i)) + rOffset m (relAt m ehdr i k),
    by rw [place, Nat.add_assoc], by omega, fun o' hfrozen => ?_⟩
  rcases hfrozen with h52 | htable | ⟨i', hi', ht', hrange⟩
  · omega
  · omega
  · have hne : i' ≠ target m ehdr i := by
      rintro rfl
      exact hnot ht'
    have hapart := hw.apart i' hi' _ htarget hne ht'.hasBytes hbytes
    omega

theorem WellFormed.place_apart {i' k' : ℕ} (h : IsRel m ehdr i k) (h' : IsRel m ehdr i' k')
    (hne : (i, k) ≠ (i', k')) :
    place m ehdr i k + 4 ≤ place m ehdr i' k' ∨ place m ehdr i' k' + 4 ≤ place m ehdr i k :=
  hw.places_apart i h.section_lt h.type k h.entry_lt i' h'.section_lt h'.type k' h'.entry_lt hne

structure Ready (m : Memory) (ehdr length : ℕ) (addr : ℕ → ℕ) (t : Loader) : Prop where
  placed : Placed m ehdr addr t.mem
  bytes : ∀ o < length, ¬ Frozen m ehdr o → t.mem (ehdr + o) = m (ehdr + o)
  inPlace : ∀ i < eShnum m ehdr, HasBytes m ehdr i → addr i = ehdr + shOffset m (sec m ehdr i)

structure Relocated (m : Memory) (ehdr length symtab strtab : ℕ) (addr : ℕ → ℕ) (t : Loader)
    (D : ℕ → ℕ → Prop) (s : Loader) : Prop where
  same : ∀ o < length, (∀ i k, IsRel m ehdr i k → D i k →
      ehdr + o < place m ehdr i k ∨ place m ehdr i k + 4 ≤ ehdr + o) →
    s.mem (ehdr + o) = t.mem (ehdr + o)
  word : ∀ i k, IsRel m ehdr i k → D i k →
    load32 s.mem (place m ehdr i k) = writtenWord m ehdr symtab strtab addr t.symboltable i k
  symboltable : s.symboltable = t.symboltable

variable {D : ℕ → ℕ → Prop} (ht : Ready m ehdr length addr t)
  (hr : Relocated m ehdr length symtab strtab addr t D s)
include ht hr

omit ht in
theorem Relocated.frozen {o : ℕ} (hfrozen : Frozen m ehdr o) :
    s.mem (ehdr + o) = t.mem (ehdr + o) := by
  refine hr.same o (hw.frozen_lt hfrozen) fun i k h _ => ?_
  obtain ⟨p, hp, -, hapart⟩ := hw.place_eq h
  have := hapart o hfrozen
  omega

theorem Relocated.placed : Placed m ehdr addr s.mem := by
  have hfits := hw.fits
  have hend := hw.headers_end
  refine ⟨fun o hfrozen hfield => ?_, fun i hi => ?_⟩
  · rw [hr.frozen hw hfrozen, ht.placed.unchanged o hfrozen hfield]
  · rw [← ht.placed.shAddr i hi, shAddr, shAddr, load32, load32, sec_addr]
    congr 1
    refine List.map_congr_left fun j hj => ?_
    have hj := List.mem_range.mp hj
    rw [Nat.mod_eq_of_lt (by omega), Nat.add_assoc]
    exact hr.frozen hw (Or.inr (Or.inl (by omega)))

theorem Relocated.addend (h : IsRel m ehdr i k) (hD : ¬ D i k) :
    load32 s.mem (place m ehdr i k) = load32 m (place m ehdr i k) := by
  obtain ⟨o, ho, hlen, hapart⟩ := hw.place_eq h
  have hfits := hw.fits
  rw [ho, load32, load32]
  congr 1
  refine List.map_congr_left fun j hj => ?_
  have hj := List.mem_range.mp hj
  rw [Nat.mod_eq_of_lt (by omega), Nat.add_assoc, hr.same _ (by omega), ht.bytes _ (by omega)]
  · intro hfrozen
    have := hapart _ hfrozen
    omega
  · intro i' k' h' hD'
    have hne : (i, k) ≠ (i', k') := by
      rintro ⟨⟩
      exact hD hD'
    have := hw.place_apart h h' hne
    omega

theorem Relocated.symbolAddress (hj : j < symbolCount m ehdr symtab) :
    symbolAddress ehdr (ehdr + shOffset m (sec m ehdr strtab)) (symAt m ehdr symtab j) s =
      boundAddress m ehdr symtab strtab addr t.symboltable j := by
  have hp := hr.placed hw ht
  have hk := hp.unchanged
  rw [Modules.symbolAddress, boundAddress, symstrtab_name hw hk hj, hr.symboltable,
    hk.stInfo hw.toLaidOut hj, hk.stShndx hw.toLaidOut hj, hk.eShentsize hw.toLaidOut,
    hk.shdrAt hw.toLaidOut]
  by_cases hsec : IsSection m ehdr symtab j
  · have htype : elf32StType (stInfo m (symAt m ehdr symtab j)) = sttSection := hsec
    rw [if_pos htype, if_pos hsec]
    exact hp.shAddr _ (hw.section_index j hj hsec).1
  · have htype : ¬ elf32StType (stInfo m (symAt m ehdr symtab j)) = sttSection := hsec
    rw [if_neg htype, if_neg hsec]

theorem Relocated.entry (h : IsRel m ehdr i k) :
    rInfo s.mem (relAt m ehdr i k) = fullInfo m ehdr i k % 65536 ∧
      shAddr s.mem (sec m ehdr symtab) +
        16 * elf32RSym (fullInfo m ehdr i k % 65536) =
          symAt m ehdr symtab (elf32RSym (fullInfo m ehdr i k) % 256) ∧
      (rOffset s.mem (relAt m ehdr i k) +
        shAddr s.mem (shdrAt s.mem ehdr (shInfo s.mem (sec m ehdr i) * eShentsize s.mem ehdr))) %
          2 ^ 32 = place m ehdr i k := by
  have hp := hr.placed hw ht
  have hk := hp.unchanged
  have hfits := hw.fits
  obtain ⟨-, htarget, hbytes, -⟩ := hw.rel_section i h.section_lt h.type
  obtain ⟨o, ho, hlen, -⟩ := hw.place_eq h
  refine ⟨?_, ?_, ?_⟩
  · rw [rInfo, load16, hk.load_rel hw.toLaidOut h.section_lt h.type h.entry_lt (by decide),
      ← load16, load16_eq_mod, fullInfo]
  · rw [hp.shAddr _ hw.symtab_lt, ht.inPlace _ hw.symtab_lt
      (TableType.hasBytes (Or.inl hw.symtab_type)), symAt, elf32RSym, elf32RSym]
    omega
  · have hoffset : rOffset s.mem (relAt m ehdr i k) = rOffset m (relAt m ehdr i k) := by
      have hload := hk.load_rel hw.toLaidOut h.section_lt h.type h.entry_lt (f := 0) (n := 4)
        (by decide)
      rw [Nat.add_zero] at hload
      rw [rOffset, rOffset, load32, load32, hload]
    have hsec : shAddr s.mem (shdrAt m ehdr (target m ehdr i * 40)) = addr (target m ehdr i) :=
      hp.shAddr _ htarget
    rw [hoffset, hk.eShentsize hw.toLaidOut, hk.shdrAt hw.toLaidOut,
      hk.shInfo hw.toLaidOut h.section_lt, ← target, hsec, ht.inPlace _ htarget hbytes,
      Nat.add_comm, ← place, ho]
    exact Nat.mod_eq_of_lt (by omega)

omit ht in
theorem Relocated.write (h : IsRel m ehdr i k) {s' : Loader}
    (hmem : s'.mem = store32 s.mem (place m ehdr i k)
      (writtenWord m ehdr symtab strtab addr t.symboltable i k))
    (hsym : s'.symboltable = s.symboltable) :
    Relocated m ehdr length symtab strtab addr t (fun a b => D a b ∨ (a, b) = (i, k)) s' := by
  have hfits := hw.fits
  obtain ⟨o, ho, hlen, -⟩ := hw.place_eq h
  have hword : writtenWord m ehdr symtab strtab addr t.symboltable i k < 2 ^ 32 := by
    rw [writtenWord, relocatedWord]
    split_ifs <;> exact Nat.mod_lt _ (by decide)
  refine ⟨fun p hp hout => ?_, fun i' k' h' hdone => ?_,
    hsym.trans hr.symboltable⟩
  · have hnot := hout i k h (Or.inr rfl)
    rw [hmem, store32, store_off, hr.same p hp fun i' k' h' hD' => hout i' k' h' (Or.inl hD')]
    · intro j hj
      rw [length_toLE] at hj
      rw [ho, Nat.mod_eq_of_lt (by omega)]
      omega
    · omega
  · by_cases heq : (i', k') = (i, k)
    · obtain ⟨rfl, rfl⟩ := Prod.mk.inj heq
      rw [hmem, load32_store32, Nat.mod_eq_of_lt hword]
    · obtain ⟨o', ho', hlen', -⟩ := hw.place_eq h'
      have hapart := hw.place_apart h' h heq
      rw [hmem, load32, store32, load_store_apart, ← load32]
      · exact hr.word i' k' h' (hdone.resolve_right heq)
      · intro j hj j' hj'
        rw [length_toLE] at hj
        rw [ho, ho', Nat.mod_eq_of_lt (by omega), Nat.mod_eq_of_lt (by omega)]
        omega

theorem relocate_step (h : IsRel m ehdr i k) (hD : ¬ D i k) :
    ∃ s', relocate ehdr (ehdr + shOffset m (sec m ehdr strtab)) (sec m ehdr symtab) (sec m ehdr i)
        (relAt m ehdr i k) s = .ok s' ∧
      Relocated m ehdr length symtab strtab addr t (fun a b => D a b ∨ (a, b) = (i, k)) s' := by
  obtain ⟨hinfo, hsym, hptr⟩ := hr.entry hw ht h
  obtain ⟨-, htype, hindex, -⟩ := hw.rel_entry i h.section_lt h.type k h.entry_lt
  have haddress := hr.symbolAddress hw ht (j := elf32RSym (fullInfo m ehdr i k) % 256)
    (Nat.lt_of_le_of_lt (Nat.mod_le _ _) hindex)
  have hlow : elf32RType (fullInfo m ehdr i k % 65536) = elf32RType (fullInfo m ehdr i k) := by
    rw [elf32RType, elf32RType]
    omega
  generalize hv : writtenWord m ehdr symtab strtab addr t.symboltable i k = v
  have hwrite : Relocated m ehdr length symtab strtab addr t (fun a b => D a b ∨ (a, b) = (i, k))
      { s with mem := store32 s.mem (place m ehdr i k) v } := hr.write hw h (by rw [hv]) rfl
  refine ⟨_, ?_, hwrite⟩
  rw [← hv]
  simp only [relocate, hinfo, hsym, hptr, haddress, hr.addend hw ht h hD, hlow]
  rcases htype with h1 | h2
  · simp only [h1, writtenWord, relocatedWord, if_true]
  · simp only [h2, writtenWord, relocatedWord, show ¬ (2 = 1) by decide, if_false]

omit hw ht in
theorem Relocated.congr {D' : ℕ → ℕ → Prop} (h : ∀ i k, IsRel m ehdr i k → (D' i k ↔ D i k)) :
    Relocated m ehdr length symtab strtab addr t D' s :=
  ⟨fun o ho hout => hr.same o ho fun i k hrel hD => hout i k hrel ((h i k hrel).mpr hD),
    fun i k hrel hD => hr.word i k hrel ((h i k hrel).mp hD), hr.symboltable⟩

omit hr in
theorem relocationLoop_spec (hi : i < eShnum m ehdr)
    (htype : shType m (sec m ehdr i) = shtRel) (hk : k ≤ shSize m (sec m ehdr i) / 8)
    (hr : Relocated m ehdr length symtab strtab addr t (fun a b => a < i ∨ a = i ∧ b < k) s)
    (hfuel : shSize m (sec m ehdr i) / 8 - k < fuel) :
    ∃ s', relocationLoop ehdr (ehdr + shOffset m (sec m ehdr strtab)) (sec m ehdr symtab)
        (sec m ehdr i) fuel (relAt m ehdr i k) s = .ok s' ∧
      Relocated m ehdr length symtab strtab addr t (fun a _ => a < i + 1) s' := by
  have hbytes : HasBytes m ehdr i := TableType.hasBytes (Or.inr (Or.inr htype))
  have hinside := (hw.inside i hi hbytes).2.1
  have hsize := (hw.rel_section i hi htype).1
  have hfits := hw.fits
  have hnull := hw.nonnull
  induction fuel generalizing k s with
  | zero => omega
  | succ fuel ih =>
    have hp := hr.placed hw ht
    have hdistance : (relAt m ehdr i k + (2 ^ 32 - shAddr s.mem (sec m ehdr i))) % 2 ^ 32 =
        8 * k := by
      rw [hp.shAddr i hi, ht.inPlace i hi hbytes, relAt]
      omega
    rw [relocationLoop, hdistance, hp.unchanged.shSize hw.toLaidOut hi]
    rcases Nat.eq_or_lt_of_le hk with heq | hlt
    · refine ⟨s, by rw [if_neg (by omega)], hr.congr fun a b hrel => ?_⟩
      have hb := hrel.entry_lt
      constructor
      · intro ha
        rcases Nat.lt_succ_iff_lt_or_eq.mp ha with ha | rfl
        · exact Or.inl ha
        · exact Or.inr ⟨rfl, by omega⟩
      · omega
    · have hrel : IsRel m ehdr i k := ⟨hi, htype, hlt⟩
      obtain ⟨s', hok, hr'⟩ := relocate_step hw ht hr hrel (by omega)
      rw [if_pos (by omega), hok]
      have hnext : relAt m ehdr i k + 8 = relAt m ehdr i (k + 1) := by
        rw [relAt, relAt]
        omega
      simp only [hnext]
      refine ih hlt (hr'.congr fun a b _ => ?_) (by omega)
      rw [Prod.mk.injEq]
      omega

omit hr in
theorem relocateSection_step (hi : i < eShnum m ehdr)
    (hr : Relocated m ehdr length symtab strtab addr t (fun a _ => a < i) s) :
    ∃ s', relocateSection ehdr (ehdr + shOffset m (sec m ehdr strtab)) (sec m ehdr symtab)
        (sec m ehdr i) s = .ok s' ∧
      Relocated m ehdr length symtab strtab addr t (fun a _ => a < i + 1) s' := by
  have hp := hr.placed hw ht
  rw [relocateSection, hp.unchanged.shType hw.toLaidOut hi, hp.unchanged.shSize hw.toLaidOut hi]
  split_ifs with htype
  · have hbytes : HasBytes m ehdr i := TableType.hasBytes (Or.inr (Or.inr htype))
    have hstart : shAddr s.mem (sec m ehdr i) = relAt m ehdr i 0 := by
      rw [hp.shAddr i hi, ht.inPlace i hi hbytes, relAt]
      rfl
    rw [hstart]
    exact relocationLoop_spec hw ht hi htype (Nat.zero_le _)
      (hr.congr fun a b _ => by omega) (by omega)
  · refine ⟨s, rfl, hr.congr fun a b hrel => ?_⟩
    have hne : a ≠ i := by
      rintro rfl
      exact htype hrel.type
    omega

omit hr in
theorem relocation_pass (hfuel : eShnum m ehdr < fuel) :
    ∃ s', sectionLoop ehdr (relocateSection ehdr (ehdr + shOffset m (sec m ehdr strtab))
        (sec m ehdr symtab)) fuel 0 t = .ok s' ∧
      Relocated m ehdr length symtab strtab addr t (fun a _ => a < eShnum m ehdr) s' := by
  have hstart : Relocated m ehdr length symtab strtab addr t (fun a _ => a < 0) t :=
    ⟨fun _ _ _ => rfl, fun i _ _ hi => absurd hi (Nat.not_lt_zero i), rfl⟩
  have hheader : ∀ i s, Relocated m ehdr length symtab strtab addr t (fun a _ => a < i) s →
      eShentsize s.mem ehdr = 40 ∧ eShnum s.mem ehdr = eShnum m ehdr ∧
        eShoff s.mem ehdr = eShoff m ehdr := by
    intro i s hr
    have hk := (hr.placed hw ht).unchanged
    exact ⟨hk.eShentsize hw.toLaidOut, hk.eShnum hw.toLaidOut, hk.eShoff hw.toLaidOut⟩
  have hbody : ∀ i < eShnum m ehdr, ∀ s,
      Relocated m ehdr length symtab strtab addr t (fun a _ => a < i) s →
      ∃ s', relocateSection ehdr (ehdr + shOffset m (sec m ehdr strtab)) (sec m ehdr symtab)
        (ehdr + eShoff m ehdr + i * 40) s = .ok s' ∧
        Relocated m ehdr length symtab strtab addr t (fun a _ => a < i + 1) s' :=
    fun i hi s hr => relocateSection_step hw ht hi hr
  obtain ⟨s', hok, hr⟩ := sectionLoop_rule
    (fun i s => Relocated m ehdr length symtab strtab addr t (fun a _ => a < i) s)
    hheader hbody hstart (Nat.zero_le _) hfuel
  exact ⟨s', by simpa using hok, hr⟩

end Pass

section Load

variable {kmalloc : ℕ → ℕ → ℕ} {ehdr length symtab strtab : ℕ}

theorem Placing.ready (hw : LaidOut s.mem ehdr length symtab strtab) {t' : Loader}
    (hp : Placing kmalloc ehdr s length (eShnum s.mem ehdr) t) (hmem : t'.mem = t.mem) :
    Ready s.mem ehdr length (sectionAddress kmalloc s.mem ehdr s.allocations) t' := by
  have hend := hw.headers_end
  refine ⟨?_, fun o ho hfrozen => ?_, fun i hi hb => ?_⟩
  · rw [hmem]
    exact ⟨hp.unchanged hw le_rfl, hp.shAddr⟩
  · rw [hmem]
    refine hp.same o ho fun j hj hfield => hfrozen (Or.inr (Or.inl ?_))
    rw [AddrField] at hfield
    omega
  · have hinside := (hw.inside i hi hb).2.1
    have hfits := hw.fits
    rw [sectionAddress, if_neg hb.2]
    exact Nat.mod_eq_of_lt (by omega)

theorem moduleLoad_spec (hw : WellFormed s.mem ehdr length symtab strtab)
    (hka : Allocates kmalloc s.mem ehdr length)
    (hpresent : ∀ j < symbolCount s.mem ehdr symtab, IsGlobal s.mem ehdr symtab j →
      stShndx s.mem (symAt s.mem ehdr symtab j) = 0 →
        hashmapGet s.symboltable (symName s.mem ehdr symtab strtab j) ≠ 0) :
    ∃ placed bound s', moduleLoad kmalloc ehdr s = .ok s' ∧
      placed.symboltable = s.symboltable ∧
      Bound s.mem ehdr symtab strtab (sectionAddress kmalloc s.mem ehdr s.allocations) placed
        (symbolCount s.mem ehdr symtab) bound ∧
      Relocated s.mem ehdr length symtab strtab (sectionAddress kmalloc s.mem ehdr s.allocations)
        bound (fun a _ => a < eShnum s.mem ehdr) s' := by
  have hnum := hw.shnum_le
  have hnull := hw.nonnull
  have hfuel : eShnum s.mem ehdr < sectionFuel := by
    rw [sectionFuel]
    omega
  obtain ⟨t, hplace, hp⟩ := placement_pass hw.toLaidOut hka hfuel
  have hready : Ready s.mem ehdr length (sectionAddress kmalloc s.mem ehdr s.allocations)
      { t with localSymbols := hashmapCreate 10 } := hp.ready hw.toLaidOut rfl
  have hstart : Bound s.mem ehdr symtab strtab (sectionAddress kmalloc s.mem ehdr s.allocations)
      { t with localSymbols := hashmapCreate 10 } 0 { t with localSymbols := hashmapCreate 10 } :=
    ⟨rfl, fun _ _ => rfl, fun i hi => absurd hi (Nat.not_lt_zero i)⟩
  have hcount : shSize t.mem (sec s.mem ehdr symtab) / 16 = symbolCount s.mem ehdr symtab := by
    rw [(hp.unchanged hw.toLaidOut le_rfl).shSize hw.toLaidOut hw.symtab_lt, symbolCount]
  obtain ⟨bound, hsymbols, hb⟩ : ∃ bound, symbolLoop kmalloc ehdr
      (ehdr + shOffset s.mem (sec s.mem ehdr strtab)) (sec s.mem ehdr symtab)
      (symbolCount s.mem ehdr symtab + 2) (16 * 0) { t with localSymbols := hashmapCreate 10 } false =
        .ok (bound, false) ∧ Bound s.mem ehdr symtab strtab
          (sectionAddress kmalloc s.mem ehdr s.allocations)
          { t with localSymbols := hashmapCreate 10 } (symbolCount s.mem ehdr symtab) bound :=
    symbolLoop_spec hw hready.placed (by rw [hp.symboltable]; exact hpresent) hstart
      (Nat.zero_le _) (by omega)
  have hready' : Ready s.mem ehdr length (sectionAddress kmalloc s.mem ehdr s.allocations) bound :=
    hp.ready hw.toLaidOut hb.mem
  obtain ⟨s', hreloc, hr⟩ := relocation_pass hw hready' hfuel
  refine ⟨{ t with localSymbols := hashmapCreate 10 }, bound, s', ?_, hp.symboltable, hb, hr⟩
  have hsec : sec s.mem ehdr symtab ≠ 0 := by
    rw [sec, shdrAt]
    omega
  rw [moduleLoad, if_neg (by simp [hw.check]), if_neg (findShstrtab_ne_zero hw.toLaidOut),
    findSymstrtab_eq hw.toLaidOut, if_neg (by omega), findSymShdr_eq hw.toLaidOut, if_neg hsec]
  simp only [hplace, hcount]
  rw [Nat.mul_zero] at hsymbols
  simp only [hsymbols, hreloc]
  rfl

end Load

theorem relocatedWord_inj {type A S S' P : ℕ} :
    relocatedWord type A S P = relocatedWord type A S' P ↔ S % 2 ^ 32 = S' % 2 ^ 32 := by
  rw [relocatedWord, relocatedWord]
  split_ifs <;> omega

/-- The map behind the symbol pass has the load address of every symbol a relocation may name,
absolute symbols apart. -/
theorem Bound.boundAddress {m : Memory} {ehdr length symtab strtab : ℕ} {addr : ℕ → ℕ}
    (hw : WellFormed m ehdr length symtab strtab)
    (hb : Bound m ehdr symtab strtab addr t (symbolCount m ehdr symtab) s)
    (hj : j < symbolCount m ehdr symtab)
    (h : IsSection m ehdr symtab j ∨ IsGlobal m ehdr symtab j ∧
      (stShndx m (symAt m ehdr symtab j) < eShnum m ehdr ∨
        stShndx m (symAt m ehdr symtab j) = shnCommon)) :
    boundAddress m ehdr symtab strtab addr s.symboltable j =
      loadAddress m ehdr symtab strtab addr t.symboltable s.symboltable j := by
  have hnum := hw.shnum_le
  rw [Modules.boundAddress, loadAddress]
  by_cases hsec : IsSection m ehdr symtab j
  · rw [if_pos hsec, if_pos hsec]
  · rw [if_neg hsec, if_neg hsec]
    obtain ⟨hg, hlt | hcommon⟩ := h.resolve_left hsec
    · rw [hb.bound j hj hg hlt, if_pos hlt]
    · have hge : ¬ stShndx m (symAt m ehdr symtab j) < eShnum m ehdr := by
        rw [hcommon, shnCommon]
        omega
      rw [if_neg (by rw [hcommon]; decide), if_neg hge, if_pos hcommon]

/-- `module_load` relocates every well-formed object to the end, and every word is right exactly
if each relocation's symbol has the same address as the one numbered by the low byte of its
index, which is the one the loader looks up. For indices below 256 this is the symbol itself, and
it has its address unless it is absolute. -/
theorem relocated_words_iff (kmalloc : ℕ → ℕ → ℕ) (s : Loader) (ehdr length symtab strtab : ℕ)
    (hw : WellFormed s.mem ehdr length symtab strtab) (hka : Allocates kmalloc s.mem ehdr length)
    (hpresent : ∀ j < symbolCount s.mem ehdr symtab, IsGlobal s.mem ehdr symtab j →
      stShndx s.mem (symAt s.mem ehdr symtab j) = 0 →
        hashmapGet s.symboltable (symName s.mem ehdr symtab strtab j) ≠ 0) :
    ∃ s', moduleLoad kmalloc ehdr s = .ok s' ∧
      (∀ j < symbolCount s.mem ehdr symtab, (IsSection s.mem ehdr symtab j ∨
          IsGlobal s.mem ehdr symtab j ∧
            (stShndx s.mem (symAt s.mem ehdr symtab j) < eShnum s.mem ehdr ∨
              stShndx s.mem (symAt s.mem ehdr symtab j) = shnCommon)) →
        boundAddress s.mem ehdr symtab strtab (sectionAddress kmalloc s.mem ehdr s.allocations)
            s'.symboltable j =
          loadAddress s.mem ehdr symtab strtab (sectionAddress kmalloc s.mem ehdr s.allocations)
            s.symboltable s'.symboltable j) ∧
      ((∀ i k, IsRel s.mem ehdr i k → load32 s'.mem (place s.mem ehdr i k) =
          relocatedWord (elf32RType (fullInfo s.mem ehdr i k))
            (load32 s.mem (place s.mem ehdr i k))
            (loadAddress s.mem ehdr symtab strtab
              (sectionAddress kmalloc s.mem ehdr s.allocations) s.symboltable s'.symboltable
              (elf32RSym (fullInfo s.mem ehdr i k)))
            (place s.mem ehdr i k)) ↔
        ∀ i k, IsRel s.mem ehdr i k →
          boundAddress s.mem ehdr symtab strtab (sectionAddress kmalloc s.mem ehdr s.allocations)
              s'.symboltable (elf32RSym (fullInfo s.mem ehdr i k) % 256) % 2 ^ 32 =
            loadAddress s.mem ehdr symtab strtab
              (sectionAddress kmalloc s.mem ehdr s.allocations) s.symboltable s'.symboltable
              (elf32RSym (fullInfo s.mem ehdr i k)) % 2 ^ 32) := by
  obtain ⟨placed, bound, s', hok, hbefore, hb, hr⟩ := moduleLoad_spec hw hka hpresent
  refine ⟨s', hok, fun j hj h => ?_, ?_⟩
  · rw [hr.symboltable, ← hbefore]
    exact hb.boundAddress hw hj h
  · rw [hr.symboltable]
    refine forall_congr' fun i => forall_congr' fun k => forall_congr' fun hrel => ?_
    rw [hr.word i k hrel hrel.section_lt, writtenWord, relocatedWord_inj]

/-- The headers and small sections of an object with `n` symbols, of which the last stands for
`.text`: `.text` (one word, 7) at 52, its one relocation, against the last symbol, at 56, names
at 64, section headers at 76, and the symbol table at 316. -/
def sampleBytes (n : ℕ) : Bytes :=
  [0x7F, 69, 76, 70, 1, 1, 1, 0, 0, 0, 0, 0, 0, 0, 0, 0] ++
  (toLE 2 1 ++ toLE 2 3 ++ toLE 4 1 ++ toLE 4 0 ++ toLE 4 0 ++ toLE 4 76 ++ toLE 4 0) ++
  (toLE 2 52 ++ toLE 2 0 ++ toLE 2 0 ++ toLE 2 40 ++ toLE 2 6 ++ toLE 2 5) ++
  (toLE 4 7 ++ toLE 4 0 ++ toLE 4 ((n - 1) * 256 + 1)) ++
  (0 :: strtabName ++ [0]) ++ [0, 0, 0] ++
  ([[0, 0, 0, 0, 0, 0, 0, 0, 0, 0], [0, 1, 0, 0, 52, 4, 0, 0, 0, 0], [0, 9, 0, 0, 56, 8, 3, 1, 0, 0],
    [0, 2, 0, 0, 316, 16 * n, 4, 0, 0, 0], [1, 3, 0, 0, 73, 1, 0, 0, 0, 0],
    [0, 3, 0, 0, 64, 9, 0, 0, 0, 0]].flatMap fun fields => fields.flatMap (toLE 4))

def sampleMemory (n : ℕ) : Memory := fun a =>
  let o := a - 0x1000
  if o < 316 then (sampleBytes n).getD o 0
  else if o = 316 + 16 * (n - 1) + 12 then 3
  else if o = 316 + 16 * (n - 1) + 14 then 1
  else 0

def sampleLoader (n : ℕ) : Loader := ⟨sampleMemory n, hashmapCreate 200, hashmapCreate 10, 0⟩

theorem sampleLoader_mem (n : ℕ) : (sampleLoader n).mem = sampleMemory n := by
  rw [sampleLoader]

theorem sampleLoader_allocations (n : ℕ) : (sampleLoader n).allocations = 0 := by
  rw [sampleLoader]

theorem sample_local (hn : n = 2 ∨ n = 257) :
    ∀ j < symbolCount (sampleMemory n) 0x1000 3, ¬ IsGlobal (sampleMemory n) 0x1000 3 j := by
  rcases hn with rfl | rfl <;> decide +kernel

set_option synthInstance.maxSize 1024 in
theorem wellFormed_sample (hn : n = 2 ∨ n = 257) :
    WellFormed (sampleMemory n) 0x1000 (316 + 16 * n) 3 4 where
  check := by rcases hn with rfl | rfl <;> decide +kernel
  nonnull := by decide
  fits := by omega
  shentsize := by rcases hn with rfl | rfl <;> decide +kernel
  headers_start := by rcases hn with rfl | rfl <;> decide +kernel
  headers_end := by rcases hn with rfl | rfl <;> decide +kernel
  shnum_le := by rcases hn with rfl | rfl <;> decide +kernel
  shstrndx := by rcases hn with rfl | rfl <;> decide +kernel
  shstrtab := by rcases hn with rfl | rfl <;> decide +kernel
  inside := by rcases hn with rfl | rfl <;> decide +kernel
  apart := by rcases hn with rfl | rfl <;> decide +kernel
  symtab_lt := by rcases hn with rfl | rfl <;> decide +kernel
  symtab_iff := by rcases hn with rfl | rfl <;> decide +kernel
  symtab_size := by rcases hn with rfl | rfl <;> decide +kernel
  strtab_lt := by rcases hn with rfl | rfl <;> decide +kernel
  strtab_iff := by rcases hn with rfl | rfl <;> decide +kernel
  strtab_link := by rcases hn with rfl | rfl <;> decide +kernel
  strtab_end := by rcases hn with rfl | rfl <;> decide +kernel
  name_lt := by rcases hn with rfl | rfl <;> decide +kernel
  global_named := fun j hj hg => absurd hg (sample_local hn j hj)
  global_distinct := fun i hi _ _ _ hg => absurd hg (sample_local hn i hi)
  section_index := by rcases hn with rfl | rfl <;> decide +kernel
  rel_section := by rcases hn with rfl | rfl <;> decide +kernel
  rel_entry := by rcases hn with rfl | rfl <;> decide +kernel
  places_apart := by rcases hn with rfl | rfl <;> decide +kernel

theorem sample_allocates (hn : n = 2 ∨ n = 257) :
    Allocates (fun _ _ => 0) (sampleMemory n) 0x1000 (316 + 16 * n) := by
  refine ⟨fun _ _ => by decide, fun i hi ht => ?_⟩
  have hnone : ∀ i < eShnum (sampleMemory n) 0x1000,
      shType (sampleMemory n) (sec (sampleMemory n) 0x1000 i) ≠ shtNobits := by
    rcases hn with rfl | rfl <;> decide +kernel
  exact absurd ht (hnone i hi)

/-- With two symbols the word is relocated by the address of `.text`. -/
theorem relocated_words_iff_two :
    ∃ s', moduleLoad (fun _ _ => 0) 0x1000 (sampleLoader 2) = .ok s' ∧
      load32 s'.mem 0x1034 = 7 + 0x1034 := by
  have hlocal := sample_local (Or.inl rfl : 2 = 2 ∨ 2 = 257)
  have hw := wellFormed_sample (Or.inl rfl : 2 = 2 ∨ 2 = 257)
  have hka := sample_allocates (Or.inl rfl : 2 = 2 ∨ 2 = 257)
  rw [← sampleLoader_mem] at hlocal hw hka
  obtain ⟨s', hok, hbound, hiff⟩ := relocated_words_iff (fun _ _ => 0) (sampleLoader 2) 0x1000
    (316 + 16 * 2) 3 4 hw hka (fun j hj hg => absurd hg (hlocal j hj))
  have hsection : IsSection (sampleMemory 2) 0x1000 3 1 := by decide +kernel
  have hindex : ∀ i < eShnum (sampleMemory 2) 0x1000,
      shType (sampleMemory 2) (sec (sampleMemory 2) 0x1000 i) = shtRel →
      ∀ k < shSize (sampleMemory 2) (sec (sampleMemory 2) 0x1000 i) / 8,
        elf32RSym (fullInfo (sampleMemory 2) 0x1000 i k) = 1 := by decide +kernel
  rw [sampleLoader_mem, sampleLoader_allocations] at hbound hiff
  have hwords := hiff.mpr fun i k hrel => by
    rw [hindex i hrel.section_lt hrel.type k hrel.entry_lt,
      hbound 1 (by decide +kernel) (Or.inl hsection)]
  have hword := hwords 2 0 ⟨by decide +kernel, by decide +kernel, by decide +kernel⟩
  have hplace : place (sampleMemory 2) 0x1000 2 0 = 0x1034 := by decide +kernel
  have htype : elf32RType (fullInfo (sampleMemory 2) 0x1000 2 0) = 1 := by decide +kernel
  have hsym : elf32RSym (fullInfo (sampleMemory 2) 0x1000 2 0) = 1 := by decide +kernel
  have hold : load32 (sampleMemory 2) 0x1034 = 7 := by decide +kernel
  have haddr : sectionAddress (fun _ _ => 0) (sampleMemory 2) 0x1000 0
      (stShndx (sampleMemory 2) (symAt (sampleMemory 2) 0x1000 3 1)) = 0x1034 := by decide +kernel
  have hload : loadAddress (sampleMemory 2) 0x1000 3 4
      (sectionAddress (fun _ _ => 0) (sampleMemory 2) 0x1000 0)
      (sampleLoader 2).symboltable s'.symboltable 1 = 0x1034 := by
    rw [loadAddress, if_pos hsection, haddr]
  rw [hplace, htype, hsym, hold, hload] at hword
  exact ⟨s', hok, hword⟩

/-- The only relocation of this object is against symbol 256, which stands for `.text` at
`0x1034`; the loader looks up symbol 0 and leaves the word as it was. -/
theorem symbol_256_not_relocated :
    WellFormed (sampleMemory 257) 0x1000 4428 3 4 ∧
      elf32RSym (fullInfo (sampleMemory 257) 0x1000 2 0) = 256 ∧
      IsSection (sampleMemory 257) 0x1000 3 256 ∧
      sectionAddress (fun _ _ => 0) (sampleMemory 257) 0x1000 0
        (stShndx (sampleMemory 257) (symAt (sampleMemory 257) 0x1000 3 256)) = 0x1034 ∧
      ∃ s', moduleLoad (fun _ _ => 0) 0x1000 (sampleLoader 257) = .ok s' ∧
        load32 s'.mem 0x1034 = 7 := by
  refine ⟨wellFormed_sample (Or.inr rfl), by decide +kernel, by decide +kernel, by decide +kernel, ?_⟩
  have hrun : (moduleLoad (fun _ _ => 0) 0x1000 (sampleLoader 257)).toOption.map
      (fun s' => load32 s'.mem 0x1034) = some 7 := by decide +kernel
  cases h : moduleLoad (fun _ _ => 0) 0x1000 (sampleLoader 257) with
  | error s => simp [h, Except.toOption] at hrun
  | ok s' => exact ⟨s', rfl, by simpa [h, Except.toOption] using hrun⟩

end Bingos.Modules
