import Bingos.AtaModel

set_option autoImplicit false
set_option maxRecDepth 4096

/-! What `read_ata` and `write_ata` transfer. Both cut a range of bytes into an
unaligned head, an unaligned tail and the whole sectors between them. -/
namespace Bingos.Ata
open MachineWords ByteMemory

variable {b : Buffer} {fuel n offset size startBlock xOffset dst endBlock q : ℕ} {m src : ℕ → UInt8}

theorem memcpy_inside (h : dst ≤ q ∧ q < dst + n) :
    memcpy m dst src n q = src (q - dst) := if_pos h

theorem memcpy_outside (h : ¬(dst ≤ q ∧ q < dst + n)) :
    memcpy m dst src n q = m q := if_neg h

/-- The range reaches the end of the sector it starts in the middle of, and is
not a part of sector 0 from its start. -/
def Spans (offset size : ℕ) : Prop :=
  (offset % ataSectorSize = 0 ∨ ataSectorSize ≤ offset % ataSectorSize + size) ∧
    (offset = 0 → ataSectorSize ≤ size)

instance (offset size : ℕ) : Decidable (Spans offset size) :=
  inferInstanceAs (Decidable (_ ∧ (_ → _)))

theorem lastByte_eq (hsize : 0 < size) (hle : offset + size ≤ 2 ^ 32) :
    sub32 (add32 offset size) 1 = offset + size - 1 := by
  unfold sub32 add32
  omega

theorem add32_mod_sector (a b : ℕ) : add32 a b % 512 = (a + b) % 512 := by
  unfold add32
  omega

section Read
variable {disk : ℕ → UInt8}

def readSectors (disk : ℕ → UInt8) : ℕ → ℕ → ℕ → Buffer → Buffer
  | 0, _, _, b => b
  | n + 1, startBlock, xOffset, b =>
    readSectors disk n (startBlock + 1) (xOffset + 512)
      (b.write xOffset (sector disk startBlock) ataSectorSize)

theorem readLoop_done (hfuel : 0 < fuel)
    (h : endBlock < startBlock) : readLoop disk fuel startBlock endBlock xOffset b = some b := by
  cases fuel with
  | zero => omega
  | succ fuel => rw [readLoop, if_neg (Nat.not_le.mpr h)]

theorem readLoop_eq (hn : startBlock + n = endBlock + 1)
    (hend : endBlock + 1 < 2 ^ 32) (hx : xOffset + 512 * n ≤ 2 ^ 32) (hfuel : n < fuel) :
    readLoop disk fuel startBlock endBlock xOffset b =
      some (readSectors disk n startBlock xOffset b) := by
  induction n generalizing fuel startBlock xOffset b with
  | zero => exact readLoop_done (by omega) (by omega)
  | succ n ih =>
    cases fuel with
    | zero => omega
    | succ fuel =>
      have hnext : add32 startBlock 1 = startBlock + 1 := add32_of_lt (by omega)
      have hle : startBlock ≤ endBlock := by omega
      rw [readLoop, if_pos hle, hnext, readSectors]
      cases n with
      | zero => exact readLoop_done (by omega) (by omega)
      | succ n =>
        have hadd : add32 xOffset ataSectorSize = xOffset + 512 :=
          add32_of_lt (by unfold ataSectorSize; omega)
        rw [hadd]
        exact ih (by omega) (by omega) (by omega)

theorem readLoop_endless (fuel : ℕ) (xOffset : ℕ) (b : Buffer)
    (h : startBlock < 2 ^ 32) : readLoop disk fuel startBlock (2 ^ 32 - 1) xOffset b = none := by
  induction fuel generalizing startBlock xOffset b with
  | zero => rfl
  | succ fuel ih =>
    rw [readLoop, if_pos (by omega)]
    exact ih _ _ (Nat.mod_lt _ (by decide))

theorem readSectors_bytes (n startBlock xOffset : ℕ) (b : Buffer) (q : ℕ) :
    (readSectors disk n startBlock xOffset b).bytes q =
      if xOffset ≤ q ∧ q < xOffset + 512 * n then disk (startBlock * 512 + (q - xOffset))
      else b.bytes q := by
  induction n generalizing startBlock xOffset b with
  | zero => rw [readSectors, if_neg (by omega)]
  | succ n ih =>
    rw [readSectors, ih]
    by_cases hrest : xOffset + 512 ≤ q ∧ q < xOffset + 512 + 512 * n
    · rw [if_pos hrest, if_pos (by omega)]
      exact congrArg disk (by omega)
    · rw [if_neg hrest]
      simp only [Buffer.write, ataSectorSize]
      by_cases hfirst : xOffset ≤ q ∧ q < xOffset + 512
      · have hin : xOffset ≤ q ∧ q < xOffset + 512 * (n + 1) := by omega
        rw [if_pos hin, memcpy_inside hfirst, sector, ataSectorSize]
      · have hout : ¬(xOffset ≤ q ∧ q < xOffset + 512 * (n + 1)) := by omega
        rw [if_neg hout, memcpy_outside hfirst]

theorem readSectors_written {r : ℕ × ℕ}
    (h : r ∈ (readSectors disk n startBlock xOffset b).written) :
    r ∈ b.written ∨ r.1 + r.2 ≤ xOffset + 512 * n := by
  induction n generalizing startBlock xOffset b with
  | zero => exact Or.inl h
  | succ n ih =>
    rcases ih h with hold | hle
    · rcases List.mem_append.mp hold with hold | hnew
      · exact Or.inl hold
      · rw [List.mem_singleton.mp hnew]
        right
        simp only [ataSectorSize]
        omega
    · right
      omega

theorem readRest_spec (disk : ℕ → UInt8) (startBlock xOffset : ℕ) (b : Buffer)
    (hsize : 0 < size) (hlt : offset + size ≤ 2 ^ 32) (hstart : offset + xOffset = startBlock * 512)
    (hle : xOffset ≤ size) (hzero : startBlock = 0 → 512 ≤ size) :
    ∃ fuel b', readRest disk fuel offset size startBlock
        (sub32 (add32 offset size) 1 / ataSectorSize) xOffset b = some b' ∧
      (∀ q, b'.bytes q = if xOffset ≤ q ∧ q < size then disk (offset + q) else b.bytes q) ∧
      ∀ r ∈ b'.written, r ∈ b.written ∨ r.1 + r.2 ≤ size := by
  rw [lastByte_eq hsize hlt]
  unfold readRest readTail ataSectorSize
  rw [add32_mod_sector]
  by_cases htail : (offset + size) % 512 ≠ 0 ∧ startBlock ≤ (offset + size - 1) / 512
  · -- The tail is copied first; the sectors between it and the head follow.
    obtain ⟨hmod, hblocks⟩ := htail
    have hend : sub32 ((offset + size - 1) / 512) 1 = (offset + size - 1) / 512 - 1 :=
      sub32_of_le (by omega) (by omega)
    have hdst : sub32 size ((offset + size) % 512) = size - (offset + size) % 512 :=
      sub32_of_le (by omega) (by omega)
    simp only [if_pos (And.intro hmod hblocks), hend, hdst]
    obtain ⟨n, hn⟩ := Nat.exists_eq_add_of_le hblocks
    refine ⟨n + 1, _, readLoop_eq (n := n) (by omega) (by omega) (by omega) (by omega), ?_, ?_⟩
    · intro q
      rw [readSectors_bytes]
      simp only [Buffer.write]
      by_cases hwhole : xOffset ≤ q ∧ q < xOffset + 512 * n
      · rw [if_pos hwhole, if_pos (by omega)]
        exact congrArg disk (by omega)
      · rw [if_neg hwhole]
        by_cases hlast : size - (offset + size) % 512 ≤ q ∧
            q < size - (offset + size) % 512 + (offset + size) % 512
        · rw [memcpy_inside hlast, if_pos (by omega), sector, ataSectorSize]
          exact congrArg disk (by omega)
        · rw [memcpy_outside hlast, if_neg (by omega)]
    · intro r hr
      rcases readSectors_written hr with hold | hin
      · rcases List.mem_append.mp hold with hold | hnew
        · exact Or.inl hold
        · rw [List.mem_singleton.mp hnew]
          right
          simp only
          omega
      · right
        omega
  · have hmod : (offset + size) % 512 = 0 := by omega
    simp only [if_neg htail]
    obtain ⟨n, hn⟩ := Nat.exists_eq_add_of_le
      (show startBlock ≤ (offset + size - 1) / 512 + 1 by omega)
    refine ⟨n + 1, _, readLoop_eq (n := n) (by omega) (by omega) (by omega) (by omega), ?_, ?_⟩
    · intro q
      rw [readSectors_bytes]
      have hrange : xOffset + 512 * n = size := by omega
      rw [hrange]
      split_ifs with hq
      · exact congrArg disk (by omega)
      · rfl
    · intro r hr
      rcases readSectors_written hr with hold | hin
      · exact Or.inl hold
      · right
        omega

def Delivers (disk : ℕ → UInt8) (offset size : ℕ) (before after : Buffer) : Prop :=
  (∀ q < size, after.bytes q = disk (offset + q)) ∧
    (∀ q, size ≤ q → after.bytes q = before.bytes q) ∧
    ∀ r ∈ after.written, r ∈ before.written ∨ r.1 + r.2 ≤ size

theorem readAta_of_spans (disk : ℕ → UInt8) (b : Buffer) (hsize : 0 < size)
    (hlt : offset + size ≤ 2 ^ 32) (h : Spans offset size) :
    ∃ fuel b', readAta disk fuel offset size b = some (size, b') ∧ Delivers disk offset size b b' := by
  obtain ⟨hhead, hzero⟩ := h
  unfold ataSectorSize at hhead hzero
  unfold readAta
  by_cases ho : offset % ataSectorSize ≠ 0
  · simp only [if_pos ho]
    unfold ataSectorSize at ho ⊢
    have hadd : add32 (offset / 512) 1 = offset / 512 + 1 := add32_of_lt (by omega)
    rw [hadd]
    obtain ⟨fuel, b', hrun, hbytes, hwritten⟩ := readRest_spec disk (offset / 512 + 1)
      (512 - offset % 512)
      (b.write 0 (fun i => sector disk (offset / 512) (offset % 512 + i)) (512 - offset % 512))
      hsize hlt (by omega) (by omega) (by omega)
    unfold ataSectorSize at hrun
    refine ⟨fuel, b', by rw [hrun]; rfl, ?_, ?_, ?_⟩
    · intro q hq
      rw [hbytes]
      by_cases hin : 512 - offset % 512 ≤ q
      · rw [if_pos ⟨hin, hq⟩]
      · rw [if_neg (by omega)]
        simp only [Buffer.write]
        rw [memcpy_inside ⟨by omega, by omega⟩, sector, ataSectorSize]
        exact congrArg disk (by omega)
    · intro q hq
      have hout : ¬(0 ≤ q ∧ q < 0 + (512 - offset % 512)) := by omega
      rw [hbytes, if_neg (by omega)]
      simp only [Buffer.write]
      rw [memcpy_outside hout]
    · intro r hr
      rcases hwritten r hr with hold | hin
      · rcases List.mem_append.mp hold with hold | hnew
        · exact Or.inl hold
        · rw [List.mem_singleton.mp hnew]
          right
          simp only
          omega
      · exact Or.inr hin
  · simp only [if_neg ho]
    unfold ataSectorSize at ho ⊢
    obtain ⟨fuel, b', hrun, hbytes, hwritten⟩ := readRest_spec disk (offset / 512) 0 b
      hsize hlt (by omega) (by omega) (by omega)
    unfold ataSectorSize at hrun
    refine ⟨fuel, b', by rw [hrun]; rfl, ?_, ?_, hwritten⟩
    · intro q hq
      rw [hbytes, if_pos (by omega)]
    · intro q hq
      rw [hbytes, if_neg (by omega)]

/-- A range that ends inside the sector it starts in the middle of: the head
is copied up to the end of the sector all the same. -/
theorem readAta_overrun {r : ℕ × Buffer}
    (hlt : offset + size < 2 ^ 32) (hsize : 0 < size) (ho : offset % 512 ≠ 0)
    (hshort : offset % 512 + size < 512) (h : readAta disk fuel offset size b = some r) :
    (0, 512 - offset % 512) ∈ r.2.written := by
  have hadd : add32 offset size = offset + size := add32_of_lt hlt
  have hsub : sub32 (offset + size) 1 = offset + size - 1 := sub32_of_le hlt (by omega)
  have hnext : add32 (offset / 512) 1 = offset / 512 + 1 := add32_of_lt (by omega)
  have hbeyond : ¬((offset + size) % 512 ≠ 0 ∧
      offset / 512 + 1 ≤ (offset + size - 1) / 512) := by omega
  unfold readAta readRest readTail ataSectorSize at h
  simp only [if_pos ho, hadd, hsub, hnext, if_neg hbeyond] at h
  obtain ⟨b', hrun, rfl⟩ := Option.map_eq_some_iff.mp h
  cases fuel with
  | zero => cases hrun
  | succ fuel =>
    rw [readLoop_done (Nat.succ_pos fuel) (by omega)] at hrun
    rw [← Option.some.inj hrun]
    exact List.mem_append_right _ List.mem_cons_self

/-- A part of sector 0 from its start: the last block number becomes -1. -/
theorem readAta_endless (fuel : ℕ) (b : Buffer) (hsize : 0 < size) (hshort : size < 512) :
    readAta disk fuel 0 size b = none := by
  have hadd : add32 0 size = size := (add32_of_lt (by omega)).trans (Nat.zero_add size)
  have hsub : sub32 size 1 / 512 = 0 := by
    rw [sub32_of_le (by omega) hsize]
    omega
  have hmod : size % 512 ≠ 0 ∧ 0 ≤ 0 := by omega
  unfold readAta readRest readTail ataSectorSize
  simp only [Nat.zero_mod, ne_eq, not_true_eq_false, if_false, Nat.zero_div, hadd, hsub, if_pos hmod]
  have hwrap : sub32 0 1 = 2 ^ 32 - 1 := by decide
  rw [hwrap, readLoop_endless fuel 0 _ (by decide)]
  rfl

/-- A read ends with the bytes of the disk in the buffer, and with no byte
outside it written, exactly if the range spans the sector it starts in. -/
theorem read_ata_iff (disk buffer : ℕ → UInt8) {offset size : ℕ} (hsize : 0 < size)
    (hlt : offset + size < 2 ^ 32) :
    (∃ fuel b, readAta disk fuel offset size ⟨buffer, []⟩ = some (size, b) ∧
        Delivers disk offset size ⟨buffer, []⟩ b) ↔ Spans offset size := by
  refine ⟨?_, readAta_of_spans disk _ hsize hlt.le⟩
  rintro ⟨fuel, b, hrun, -, -, hwritten⟩
  constructor
  · by_contra hshort
    unfold ataSectorSize at hshort
    have hmem := readAta_overrun hlt hsize (by omega) (by omega) hrun
    rcases hwritten _ hmem with hold | hle
    · cases hold
    · simp only at hle
      omega
  · rintro rfl
    by_contra hshort
    unfold ataSectorSize at hshort
    rw [readAta_endless fuel _ hsize (by omega)] at hrun
    cases hrun

/-- The last 12 bytes of a sector, the next one and 76 bytes of the third. -/
theorem read_ata_iff_unaligned : Spans 1012 600 ∧
    ∃ fuel b, readAta (fun p => UInt8.ofNat p) fuel 1012 600 ⟨fun _ => 0, []⟩ = some (600, b) ∧
      Delivers (fun p => UInt8.ofNat p) 1012 600 ⟨fun _ => 0, []⟩ b := by
  have h : Spans 1012 600 := by decide
  exact ⟨h, (read_ata_iff _ _ (by decide) (by decide)).mpr h⟩

/-- The first 100 bytes of a disk are never delivered, and a read of bytes 10
to 14 writes 502 bytes. -/
theorem first_bytes_never_read :
    (∀ fuel, readAta (fun _ => 7) fuel 0 100 ⟨fun _ => 0, []⟩ = none) ∧
      ∃ b, readAta (fun _ => 7) 1 10 5 ⟨fun _ => 0, []⟩ = some (5, b) ∧ b.written = [(0, 502)] ∧
        b.bytes 501 = 7 := by
  refine ⟨fun fuel => readAta_endless fuel _ (by decide) (by decide), ?_⟩
  refine ⟨_, rfl, rfl, ?_⟩
  decide

end Read

end Bingos.Ata
