import Bingos.AtaTransfers

set_option autoImplicit false
set_option maxRecDepth 4096

/-! What `write_ata` makes of the disk. The number of the last block is computed
before the size is cut to the end of the disk, and in 32 bits. -/
namespace Bingos.Ata
open MachineWords ByteMemory

theorem compareLoop_eq_zero {p q : ℕ → UInt8} {words i : ℕ}
    (h : ∀ k < 4 * words, p (i + k) = q (i + k)) : compareLoop p q words i = 0 := by
  induction words generalizing i with
  | zero => rfl
  | succ words ih =>
    have hword : ((List.range 4).map fun k => p (i + k)) = (List.range 4).map fun k => q (i + k) := by
      apply List.map_congr_left
      intro k hk
      have hlt := List.mem_range.mp hk
      exact h k (by omega)
    rw [compareLoop, hword, if_neg (fun hne => hne rfl)]
    apply ih
    intro k hk
    rw [Nat.add_assoc]
    exact h (4 + k) (by omega)

def Device.wrote (d : Device) (lba : ℕ) (buf : ℕ → UInt8) : Device :=
  (ataDeviceReadSector (ataDeviceWriteSector d lba buf) lba).2

variable {d : Device} {fuel l n startBlock xOffset : ℕ} {r : ℕ × Device} {buffer disk : ℕ → UInt8}

theorem retry_eq (d : Device) (lba : ℕ) (buf : ℕ → UInt8) (h : 0 < fuel) :
    ataDeviceWriteSectorRetry d lba buf fuel = some (d.wrote lba buf) := by
  cases fuel with
  | zero => omega
  | succ fuel =>
    have hsame : bufferCompare buf
        (ataDeviceReadSector (ataDeviceWriteSector d lba buf) lba).1 ataSectorSize = 0 := by
      apply compareLoop_eq_zero
      intro k hk
      have hin : lba * 512 ≤ lba * 512 + (0 + k) ∧ lba * 512 + (0 + k) < lba * 512 + 512 := by
        unfold ataSectorSize at hk
        omega
      simp only [ataDeviceReadSector, ataDeviceWriteSector, sector, ataSectorSize]
      rw [memcpy_inside hin, Nat.add_sub_cancel_left]
    rw [ataDeviceWriteSectorRetry]
    simp only [hsame, ne_eq, not_true_eq_false, if_false, Device.wrote]

theorem wrote_disk (d : Device) (lba : ℕ) (buf : ℕ → UInt8) (p : ℕ) :
    (d.wrote lba buf).disk p =
      if lba * 512 ≤ p ∧ p < lba * 512 + 512 then buf (p - lba * 512) else d.disk p := rfl

theorem mem_wrote_addressed {lba : ℕ} {buf : ℕ → UInt8} :
    l ∈ (d.wrote lba buf).addressed ↔ l ∈ d.addressed ∨ l = lba := by
  simp only [Device.wrote, ataDeviceReadSector, ataDeviceWriteSector, List.mem_append,
    List.mem_singleton, or_assoc, or_self]

section Loop

def writeSectors (buffer : ℕ → UInt8) : ℕ → ℕ → ℕ → Device → Device
  | 0, _, _, d => d
  | n + 1, startBlock, xOffset, d =>
    writeSectors buffer n (startBlock + 1) (xOffset + 512)
      ((d.fetch xOffset ataSectorSize).wrote startBlock fun i => buffer (xOffset + i))

theorem writeLoop_done {endBlock : ℕ} (hfuel : 0 < fuel)
    (h : endBlock < startBlock) : writeLoop buffer fuel startBlock endBlock xOffset d = some d := by
  cases fuel with
  | zero => omega
  | succ fuel => rw [writeLoop, if_neg (Nat.not_le.mpr h)]

theorem writeLoop_eq {endBlock : ℕ} (hn : startBlock + n = endBlock + 1)
    (hend : endBlock + 1 < 2 ^ 32) (hx : xOffset + 512 * n ≤ 2 ^ 32) :
    writeLoop buffer fuel startBlock endBlock xOffset d =
      if n < fuel then some (writeSectors buffer n startBlock xOffset d) else none := by
  induction n generalizing fuel startBlock xOffset d with
  | zero =>
    cases fuel with
    | zero => rfl
    | succ fuel =>
      rw [if_pos (Nat.succ_pos fuel)]
      exact writeLoop_done (Nat.succ_pos fuel) (by omega)
  | succ n ih =>
    cases fuel with
    | zero => rfl
    | succ fuel =>
      have hle : startBlock ≤ endBlock := by omega
      have hnext : add32 startBlock 1 = startBlock + 1 := add32_of_lt (by omega)
      rw [writeLoop, if_pos hle, hnext, retry_eq _ _ _ (Nat.succ_pos fuel), Option.bind_some,
        writeSectors]
      cases n with
      | zero =>
        cases fuel with
        | zero => rfl
        | succ fuel =>
          rw [if_pos (by omega)]
          exact writeLoop_done (Nat.succ_pos fuel) (by omega)
      | succ n =>
        have hadd : add32 xOffset ataSectorSize = xOffset + 512 :=
          add32_of_lt (by unfold ataSectorSize; omega)
        rw [hadd, ih (by omega) (by omega)]
        simp only [Nat.add_lt_add_iff_right]

theorem writeLoop_endless (fuel : ℕ) (xOffset : ℕ) (d : Device)
    (h : startBlock < 2 ^ 32) : writeLoop buffer fuel startBlock (2 ^ 32 - 1) xOffset d = none := by
  induction fuel generalizing startBlock xOffset d with
  | zero => rfl
  | succ fuel ih =>
    rw [writeLoop, if_pos (by omega), retry_eq _ _ _ (Nat.succ_pos fuel), Option.bind_some]
    exact ih _ _ (Nat.mod_lt _ (by decide))

theorem writeSectors_disk (n startBlock xOffset : ℕ) (d : Device) (p : ℕ) :
    (writeSectors buffer n startBlock xOffset d).disk p =
      if startBlock * 512 ≤ p ∧ p < startBlock * 512 + 512 * n then
        buffer (xOffset + (p - startBlock * 512))
      else d.disk p := by
  induction n generalizing startBlock xOffset d with
  | zero => rw [writeSectors, if_neg (by omega)]
  | succ n ih =>
    rw [writeSectors, ih, wrote_disk]
    by_cases hrest : (startBlock + 1) * 512 ≤ p ∧ p < (startBlock + 1) * 512 + 512 * n
    · have hin : startBlock * 512 ≤ p ∧ p < startBlock * 512 + 512 * (n + 1) := by omega
      rw [if_pos hrest, if_pos hin]
      exact congrArg buffer (by omega)
    · rw [if_neg hrest]
      exact if_congr (by omega) rfl rfl

theorem mem_writeSectors_addressed :
    l ∈ (writeSectors buffer n startBlock xOffset d).addressed ↔
      l ∈ d.addressed ∨ startBlock ≤ l ∧ l < startBlock + n := by
  induction n generalizing startBlock xOffset d with
  | zero =>
    rw [writeSectors]
    exact ⟨Or.inl, fun h => h.elim id fun h => by omega⟩
  | succ n ih =>
    rw [writeSectors, ih, mem_wrote_addressed, or_assoc]
    apply or_congr Iff.rfl
    omega

theorem writeSectors_fetched {r : ℕ × ℕ}
    (h : r ∈ (writeSectors buffer n startBlock xOffset d).fetched) :
    r ∈ d.fetched ∨ r.1 + r.2 ≤ xOffset + 512 * n := by
  induction n generalizing startBlock xOffset d with
  | zero => exact Or.inl h
  | succ n ih =>
    rcases ih h with hold | hle
    · rcases List.mem_append.mp hold with hold | hnew
      · exact Or.inl hold
      · rw [List.mem_singleton.mp hnew]
        right
        simp only [ataSectorSize]
        omega
    · right
      omega

end Loop

section Parts
variable {offset size endBlock : ℕ}

def headed (buffer : ℕ → UInt8) (offset : ℕ) (d : Device) : Device :=
  ((ataDeviceReadSector d (offset / 512)).2.fetch 0 (512 - offset % 512)).wrote (offset / 512)
    (memcpy (sector d.disk (offset / 512)) (offset % 512) buffer (512 - offset % 512))

theorem writeHead_eq (d : Device) (hfuel : 0 < fuel) :
    writeHead fuel offset (offset / 512) buffer d = some (headed buffer offset d) :=
  retry_eq _ _ _ hfuel

theorem headed_disk (d : Device) (p : ℕ) :
    (headed buffer offset d).disk p =
      if offset ≤ p ∧ p < offset + (512 - offset % 512) then buffer (p - offset) else d.disk p := by
  rw [headed, wrote_disk]
  by_cases hsector : offset / 512 * 512 ≤ p ∧ p < offset / 512 * 512 + 512
  · rw [if_pos hsector]
    by_cases hin : offset ≤ p ∧ p < offset + (512 - offset % 512)
    · rw [if_pos hin, memcpy_inside ⟨by omega, by omega⟩]
      exact congrArg buffer (by omega)
    · have hout : ¬(offset % 512 ≤ p - offset / 512 * 512 ∧
          p - offset / 512 * 512 < offset % 512 + (512 - offset % 512)) := by omega
      rw [if_neg hin, memcpy_outside hout, sector, ataSectorSize]
      exact congrArg d.disk (by omega)
  · rw [if_neg hsector, if_neg (by omega)]
    rfl

theorem mem_headed_addressed :
    l ∈ (headed buffer offset d).addressed ↔ l ∈ d.addressed ∨ l = offset / 512 := by
  rw [headed, mem_wrote_addressed]
  simp only [Device.fetch, ataDeviceReadSector, List.mem_append, List.mem_singleton, or_assoc,
    or_self]

theorem headed_fetched (d : Device) :
    (headed buffer offset d).fetched = d.fetched ++ [(0, 512 - offset % 512)] := rfl

theorem writeRest_no_tail (buffer : ℕ → UInt8) (fuel xOffset : ℕ) (d : Device)
    (h : ¬(add32 offset size % 512 ≠ 0 ∧ startBlock ≤ endBlock)) :
    writeRest fuel offset size startBlock endBlock xOffset buffer d =
      writeLoop buffer fuel startBlock endBlock xOffset d := by
  unfold writeRest writeTail ataSectorSize
  rw [if_neg h, Option.bind_some]

def tailed (buffer : ℕ → UInt8) (offset size endBlock : ℕ) (d : Device) : Device :=
  ((ataDeviceReadSector d endBlock).2.fetch (sub32 size (add32 offset size % 512))
    (add32 offset size % 512)).wrote endBlock
      (memcpy (sector d.disk endBlock) 0
        (fun i => buffer (sub32 size (add32 offset size % 512) + i)) (add32 offset size % 512))

theorem writeRest_tail (buffer : ℕ → UInt8) (xOffset : ℕ) (d : Device) (hfuel : 0 < fuel)
    (h : add32 offset size % 512 ≠ 0 ∧ startBlock ≤ endBlock) :
    writeRest fuel offset size startBlock endBlock xOffset buffer d =
      writeLoop buffer fuel startBlock (sub32 endBlock 1) xOffset
        (tailed buffer offset size endBlock d) := by
  unfold writeRest writeTail ataSectorSize
  rw [if_pos h]
  simp only [retry_eq _ _ _ hfuel, Option.map_some, Option.bind_some]
  rfl

/-- Behind its head a write that ends at or before 2^32, with no part of sector
0, sets its bytes of the disk and addresses their sectors. -/
theorem writeRest_spec (buffer : ℕ → UInt8) (startBlock xOffset : ℕ) (d : Device)
    (hsize : 0 < size) (hlt : offset + size ≤ 2 ^ 32) (hs : size < 2 ^ 32)
    (hstart : offset + xOffset = startBlock * 512) (hle : xOffset ≤ size)
    (hzero : startBlock = 0 → 512 ≤ size) :
    ∃ fuel d', 0 < fuel ∧ writeRest fuel offset size startBlock
        (sub32 (add32 offset size) 1 / ataSectorSize) xOffset buffer d = some d' ∧
      (∀ p, d'.disk p = if offset + xOffset ≤ p ∧ p < offset + size then buffer (p - offset)
        else d.disk p) ∧
      (∀ l ∈ d'.addressed, l ∈ d.addressed ∨ l * 512 < offset + size) ∧
      ∀ r ∈ d'.fetched, r ∈ d.fetched ∨ r.1 + r.2 ≤ size := by
  rw [lastByte_eq hsize hlt, ataSectorSize]
  by_cases htail : add32 offset size % 512 ≠ 0 ∧ startBlock ≤ (offset + size - 1) / 512
  · have hblocks := htail.2
    have hmod := htail.1
    rw [add32_mod_sector] at hmod
    have hend : sub32 ((offset + size - 1) / 512) 1 = (offset + size - 1) / 512 - 1 :=
      sub32_of_le (by omega) (by omega)
    have hsrc : sub32 size ((offset + size) % 512) = size - (offset + size) % 512 :=
      sub32_of_le hs (by omega)
    obtain ⟨n, hn⟩ := Nat.exists_eq_add_of_le hblocks
    have hrun := writeRest_tail buffer xOffset d (Nat.succ_pos n) htail
    rw [hend, writeLoop_eq (n := n) (by omega) (by omega) (by omega),
      if_pos (Nat.lt_succ_self n)] at hrun
    refine ⟨n + 1, _, Nat.succ_pos n, hrun, ?_, ?_, ?_⟩
    · intro p
      rw [writeSectors_disk, tailed, wrote_disk, add32_mod_sector, hsrc]
      by_cases hwhole : startBlock * 512 ≤ p ∧ p < startBlock * 512 + 512 * n
      · have hin : offset + xOffset ≤ p ∧ p < offset + size := by omega
        rw [if_pos hwhole, if_pos hin]
        exact congrArg buffer (by omega)
      · rw [if_neg hwhole]
        by_cases hlast : (offset + size - 1) / 512 * 512 ≤ p ∧
            p < (offset + size - 1) / 512 * 512 + 512
        · rw [if_pos hlast]
          by_cases hin : p < offset + size
          · rw [if_pos ⟨by omega, hin⟩, memcpy_inside ⟨by omega, by omega⟩]
            exact congrArg buffer (by omega)
          · have hout : ¬(0 ≤ p - (offset + size - 1) / 512 * 512 ∧
                p - (offset + size - 1) / 512 * 512 < 0 + (offset + size) % 512) := by omega
            rw [if_neg (fun h => hin h.2), memcpy_outside hout, sector, ataSectorSize]
            exact congrArg d.disk (by omega)
        · have hout : ¬(offset + xOffset ≤ p ∧ p < offset + size) := by omega
          rw [if_neg hlast, if_neg hout]
          rfl
    · intro l hl
      rcases mem_writeSectors_addressed.mp hl with hold | hin
      · rcases mem_wrote_addressed.mp hold with hold | rfl
        · rcases List.mem_append.mp hold with hold | hnew
          · exact Or.inl hold
          · rw [List.mem_singleton.mp hnew]
            right
            omega
        · right
          omega
      · right
        omega
    · intro r hr
      rcases writeSectors_fetched hr with hold | hin
      · rcases List.mem_append.mp hold with hold | hnew
        · exact Or.inl hold
        · rw [List.mem_singleton.mp hnew, add32_mod_sector, hsrc]
          right
          simp only
          omega
      · right
        omega
  · have hmod : (offset + size) % 512 = 0 := by
      rw [add32_mod_sector] at htail
      omega
    obtain ⟨n, hn⟩ := Nat.exists_eq_add_of_le
      (show startBlock ≤ (offset + size - 1) / 512 + 1 by omega)
    have hrun := writeRest_no_tail buffer (n + 1) xOffset d htail
    rw [writeLoop_eq (n := n) (by omega) (by omega) (by omega),
      if_pos (Nat.lt_succ_self n)] at hrun
    refine ⟨n + 1, _, Nat.succ_pos n, hrun, ?_, ?_, ?_⟩
    · intro p
      rw [writeSectors_disk]
      have hrange : startBlock * 512 + 512 * n = offset + size := by omega
      rw [hrange, hstart]
      split_ifs with hp
      · exact congrArg buffer (by omega)
      · rfl
    · intro l hl
      rcases mem_writeSectors_addressed.mp hl with hold | hin
      · exact Or.inl hold
      · right
        omega
    · intro r hr
      rcases writeSectors_fetched hr with hold | hin
      · exact Or.inl hold
      · right
        omega

def afterHead (buffer : ℕ → UInt8) (offset : ℕ) (d : Device) : Device :=
  if offset % 512 ≠ 0 then headed buffer offset d else d

theorem afterHead_disk (d : Device) (p : ℕ) :
    (afterHead buffer offset d).disk p =
      if offset ≤ p ∧ p < (offset + 511) / 512 * 512 then buffer (p - offset) else d.disk p := by
  unfold afterHead
  by_cases ho : offset % 512 ≠ 0
  · rw [if_pos ho, headed_disk]
    exact if_congr (by omega) rfl rfl
  · rw [if_neg ho, if_neg (by omega)]

theorem mem_afterHead_addressed :
    l ∈ (afterHead buffer offset d).addressed ↔
      l ∈ d.addressed ∨ offset % 512 ≠ 0 ∧ l = offset / 512 := by
  unfold afterHead
  by_cases ho : offset % 512 ≠ 0
  · rw [if_pos ho, mem_headed_addressed, and_iff_right ho]
  · rw [if_neg ho]
    exact ⟨Or.inl, fun h => h.elim id fun h => absurd h.1 ho⟩

theorem mem_afterHead_fetched {r : ℕ × ℕ} :
    r ∈ (afterHead buffer offset d).fetched ↔
      r ∈ d.fetched ∨ offset % 512 ≠ 0 ∧ r = (0, 512 - offset % 512) := by
  unfold afterHead
  by_cases ho : offset % 512 ≠ 0
  · rw [if_pos ho, headed_fetched, List.mem_append, List.mem_singleton, and_iff_right ho]
  · rw [if_neg ho]
    exact ⟨Or.inl, fun h => h.elim id fun h => absurd h.1 ho⟩

def cutSize (maxOffset offset size : ℕ) : ℕ :=
  if maxOffset < add32 offset size then (maxOffset - offset) % 2 ^ 32 else size

/-- `write_ata` from an offset that is not beyond the end: the head, then the
rest from the next sector boundary on. -/
theorem writeAta_eq {maxOffset : ℕ} (d : Device) (hfuel : 0 < fuel) (hlt : offset < 2 ^ 32)
    (hmax : offset ≤ maxOffset) :
    writeAta maxOffset buffer fuel offset size d =
      (writeRest fuel offset (cutSize maxOffset offset size) ((offset + 511) / 512)
        (sub32 (add32 offset size) 1 / ataSectorSize) ((offset + 511) / 512 * 512 - offset) buffer
        (afterHead buffer offset d)).map (cutSize maxOffset offset size, ·) := by
  unfold writeAta afterHead cutSize ataSectorSize
  simp only [if_neg (Nat.not_lt.mpr hmax)]
  by_cases ho : offset % 512 ≠ 0
  · have hnext : add32 (offset / 512) 1 = (offset + 511) / 512 := by
      unfold add32
      omega
    have hbytes : 512 - offset % 512 = (offset + 511) / 512 * 512 - offset := by omega
    rw [if_pos ho, if_pos ho, writeHead_eq d hfuel, Option.bind_some, hnext, hbytes]
  · have hblock : offset / 512 = (offset + 511) / 512 := by omega
    have hbytes : 0 = (offset + 511) / 512 * 512 - offset := by omega
    rw [if_neg ho, if_neg ho, hblock, ← hbytes]

theorem writeAta_zero (maxOffset : ℕ) (d : Device) (hmax : offset ≤ maxOffset) :
    writeAta maxOffset buffer 0 offset size d = none := by
  have hrest : ∀ size startBlock endBlock xOffset d,
      writeRest 0 offset size startBlock endBlock xOffset buffer d = none := by
    intro size startBlock endBlock xOffset d
    unfold writeRest
    cases writeTail 0 offset size startBlock endBlock buffer d with
    | none => rfl
    | some r => rfl
  unfold writeAta
  simp only [if_neg (Nat.not_lt.mpr hmax), hrest, Option.map_none]
  split_ifs <;> rfl

end Parts

/-- What a write of `size` bytes has to do: it returns the number of bytes up to
the end of the disk, sets these bytes and no other, addresses no sector beyond
the end and reads no byte behind the buffer, and the bytes are read back. -/
structure WritesRange (maxOffset : ℕ) (buffer : ℕ → UInt8) (offset size : ℕ) (disk : ℕ → UInt8)
    (r : ℕ × Device) : Prop where
  count : r.1 = min size (maxOffset - offset)
  disk : ∀ p, r.2.disk p =
    if offset ≤ p ∧ p < offset + r.1 then buffer (p - offset) else disk p
  addressed : ∀ lba ∈ r.2.addressed, lba < maxOffset / ataSectorSize
  fetched : ∀ f ∈ r.2.fetched, f.1 + f.2 ≤ size
  readBack : ∀ b, 0 < r.1 → ∃ fuel b', readAta r.2.disk fuel offset r.1 ⟨b, []⟩ = some (r.1, b') ∧
    ∀ q < r.1, b'.bytes q = buffer q

theorem ataMaxOffset_mod (sectors48 sectors28 : ℕ) :
    ataMaxOffset sectors48 sectors28 % 512 = 0 := by
  unfold ataMaxOffset ataSectorSize
  omega

section Iff
variable {maxOffset offset size : ℕ}

theorem writesRange_of_beyond (buffer disk : ℕ → UInt8) (fuel : ℕ) (h : maxOffset < offset) :
    writeAta maxOffset buffer fuel offset size ⟨disk, [], []⟩ = some (0, ⟨disk, [], []⟩) ∧
      WritesRange maxOffset buffer offset size disk (0, ⟨disk, [], []⟩) := by
  refine ⟨?_, ?_, ?_, ?_, ?_, ?_⟩
  · unfold writeAta
    simp only [if_pos h]
  · simp only
    omega
  · intro p
    rw [if_neg (by simp only; omega)]
  · intro lba hlba
    cases hlba
  · intro f hf
    cases hf
  · intro b hpos
    exact absurd hpos (Nat.lt_irrefl 0)

theorem writesRange_of_spans (buffer disk : ℕ → UInt8) (hsize : 0 < size) (hs : size < 2 ^ 32)
    (hmax : offset + size ≤ maxOffset) (hlt : offset + size ≤ 2 ^ 32) (h : Spans offset size)
    (hmod : maxOffset % 512 = 0) :
    ∃ fuel r, writeAta maxOffset buffer fuel offset size ⟨disk, [], []⟩ = some r ∧
      WritesRange maxOffset buffer offset size disk r := by
  have hspans := h
  obtain ⟨hhead, hzero⟩ := h
  unfold ataSectorSize at hhead hzero
  have hcut : cutSize maxOffset offset size = size := by
    have hle : add32 offset size ≤ offset + size := Nat.mod_le _ _
    exact if_neg (by omega)
  -- With the disk as stated, the rest of what is asked follows.
  have hfinish : ∀ d' : Device,
      (∀ p, d'.disk p = if offset ≤ p ∧ p < offset + size then buffer (p - offset) else disk p) →
      (∀ l ∈ d'.addressed, l * 512 < offset + size) → (∀ f ∈ d'.fetched, f.1 + f.2 ≤ size) →
      WritesRange maxOffset buffer offset size disk (size, d') := by
    intro d' hdisk haddr hfetch
    refine ⟨by simp only; omega, hdisk, fun lba hlba => ?_, hfetch, fun b hpos => ?_⟩
    · have hin := haddr lba hlba
      unfold ataSectorSize
      omega
    · obtain ⟨fuel, b', hrun, hbytes, -, -⟩ :=
        readAta_of_spans d'.disk ⟨b, []⟩ hsize hlt hspans
      refine ⟨fuel, b', hrun, fun q hq => ?_⟩
      rw [hbytes q hq, hdisk, if_pos (by simp only at hq; omega), Nat.add_sub_cancel_left]
  obtain ⟨fuel, d', hfuel, hrun, hdisk, haddr, hfetch⟩ := writeRest_spec buffer
    ((offset + 511) / 512) ((offset + 511) / 512 * 512 - offset)
    (afterHead buffer offset ⟨disk, [], []⟩)
    hsize hlt hs (by omega) (by omega) (by omega)
  refine ⟨fuel, (size, d'), ?_, hfinish d' (fun p => ?_) (fun l hl => ?_) (fun f hf => ?_)⟩
  · rw [writeAta_eq _ hfuel (by omega) (by omega), hcut, hrun, Option.map_some]
  · rw [hdisk, afterHead_disk]
    by_cases hrest : offset + ((offset + 511) / 512 * 512 - offset) ≤ p ∧ p < offset + size
    · rw [if_pos hrest, if_pos (by omega)]
    · rw [if_neg hrest]
      exact if_congr (by omega) rfl rfl
  · rcases haddr l hl with hold | hin
    · rcases mem_afterHead_addressed.mp hold with hnil | ⟨ho, rfl⟩
      · cases hnil
      · omega
    · exact hin
  · rcases hfetch f hf with hold | hin
    · rcases mem_afterHead_fetched.mp hold with hnil | ⟨ho, rfl⟩
      · cases hnil
      · simp only
        omega
    · exact hin

theorem writeAta_head_only (hlt : offset < 2 ^ 32) (hmax : offset ≤ maxOffset)
    (hend : sub32 (add32 offset size) 1 / ataSectorSize < (offset + 511) / 512)
    (h : writeAta maxOffset buffer fuel offset size d = some r) :
    r = (cutSize maxOffset offset size, afterHead buffer offset d) := by
  rcases Nat.eq_zero_or_pos fuel with rfl | hfuel
  · rw [writeAta_zero maxOffset d hmax] at h
    cases h
  · rw [writeAta_eq d hfuel hlt hmax,
      writeRest_no_tail _ _ _ _ (fun htail => absurd htail.2 (Nat.not_le.mpr hend)),
      writeLoop_done hfuel hend, Option.map_some] at h
    exact (Option.some.inj h).symm

/-- The sum of offset and size must not wrap: the last byte stays unwritten. -/
theorem WritesRange.sum_le (hlt : offset < 2 ^ 32) (hs : size < 2 ^ 32) (hmax : offset ≤ maxOffset)
    (hdiff : ∀ p q, buffer p ≠ disk q)
    (h : writeAta maxOffset buffer fuel offset size ⟨disk, [], []⟩ = some r)
    (hr : WritesRange maxOffset buffer offset size disk r) : offset + size ≤ 2 ^ 32 := by
  by_contra hwrap
  have hadd : add32 offset size = offset + size - 2 ^ 32 := by
    unfold add32
    omega
  have hlast : sub32 (add32 offset size) 1 = offset + size - 2 ^ 32 - 1 := by
    rw [hadd]
    exact sub32_of_le (by omega) (by omega)
  have hcut : cutSize maxOffset offset size = size := if_neg (by omega)
  have hend : sub32 (add32 offset size) 1 / ataSectorSize < (offset + 511) / 512 := by
    rw [hlast, ataSectorSize]
    omega
  have hr' := writeAta_head_only hlt hmax hend h
  rw [hcut] at hr'
  subst hr'
  have hbyte := hr.disk (offset + size - 1)
  have hout : ¬(offset ≤ offset + size - 1 ∧ offset + size - 1 < (offset + 511) / 512 * 512) := by
    omega
  have hin : offset ≤ offset + size - 1 ∧ offset + size - 1 < offset + size := by omega
  rw [afterHead_disk, if_neg hout, if_pos hin] at hbyte
  exact hdiff _ _ hbyte.symm

/-- A range over the end of the disk: the block behind the end is written. -/
theorem WritesRange.end_le (hsize : 0 < size) (hmax : offset ≤ maxOffset)
    (hmod : maxOffset % 512 = 0) (hle : offset + size ≤ 2 ^ 32)
    (h : writeAta maxOffset buffer fuel offset size ⟨disk, [], []⟩ = some r)
    (hr : WritesRange maxOffset buffer offset size disk r) : offset + size ≤ maxOffset := by
  by_contra hover
  rcases Nat.eq_zero_or_pos fuel with rfl | hfuel
  · rw [writeAta_zero maxOffset _ hmax] at h
    cases h
  rw [writeAta_eq _ hfuel (by omega) hmax] at h
  obtain ⟨d', hrun, rfl⟩ := Option.map_eq_some_iff.mp h
  have hcount : cutSize maxOffset offset size = maxOffset - offset :=
    hr.count.trans (by omega)
  have hnotail : ¬(add32 offset (maxOffset - offset) % 512 ≠ 0 ∧
      (offset + 511) / 512 ≤ (offset + size - 1) / 512) := by
    rw [add32_mod_sector]
    omega
  obtain ⟨n, hn⟩ := Nat.exists_eq_add_of_le
    (show (offset + 511) / 512 ≤ (offset + size - 1) / 512 + 1 by omega)
  rw [hcount, lastByte_eq hsize hle, ataSectorSize, writeRest_no_tail _ _ _ _ hnotail,
    writeLoop_eq (n := n) (by omega) (by omega) (by omega)] at hrun
  split_ifs at hrun with hrounds
  have hd : writeSectors buffer n ((offset + 511) / 512) ((offset + 511) / 512 * 512 - offset)
      (afterHead buffer offset ⟨disk, [], []⟩) = d' := Option.some.inj hrun
  have haddr := hr.addressed
  simp only [← hd, ataSectorSize] at haddr
  cases n with
  | zero =>
    -- The range ends in the sector of its head, which is inside the disk.
    omega
  | succ n =>
    have hlast := haddr ((offset + size - 1) / 512)
      (mem_writeSectors_addressed.mpr (Or.inr (by omega)))
    omega

theorem WritesRange.spans (hsize : 0 < size) (hmax : offset + size ≤ maxOffset)
    (hle : offset + size ≤ 2 ^ 32) (hs : size < 2 ^ 32)
    (h : writeAta maxOffset buffer fuel offset size ⟨disk, [], []⟩ = some r)
    (hr : WritesRange maxOffset buffer offset size disk r) : Spans offset size := by
  have hlast := lastByte_eq hsize hle
  constructor
  · by_contra hshort
    unfold ataSectorSize at hshort
    have hend : sub32 (add32 offset size) 1 / ataSectorSize < (offset + 511) / 512 := by
      rw [hlast, ataSectorSize]
      omega
    have hr' := writeAta_head_only (by omega) (by omega) hend h
    subst hr'
    have hfetch := hr.fetched (0, 512 - offset % 512)
      (mem_afterHead_fetched.mpr (Or.inr ⟨by omega, rfl⟩))
    simp only at hfetch
    omega
  · rintro rfl
    by_contra hshort
    unfold ataSectorSize at hshort
    rcases Nat.eq_zero_or_pos fuel with rfl | hfuel
    · rw [writeAta_zero maxOffset _ (Nat.zero_le _)] at h
      cases h
    · have hadd : add32 0 size = size := (add32_of_lt (by omega)).trans (Nat.zero_add size)
      have hblock : sub32 size 1 / 512 = 0 := by
        rw [sub32_of_le hs hsize]
        omega
      have hcut : cutSize maxOffset 0 size = size := if_neg (by omega)
      have htail : add32 0 size % 512 ≠ 0 ∧ (0 + 511) / 512 ≤ sub32 (add32 0 size) 1 / 512 := by
        rw [hadd, hblock]
        omega
      have hwrap : sub32 (sub32 (add32 0 size) 1 / 512) 1 = 2 ^ 32 - 1 := by
        rw [hadd, hblock]
        decide
      rw [writeAta_eq _ hfuel (by decide) (Nat.zero_le _), hcut, ataSectorSize,
        writeRest_tail _ _ _ hfuel htail, hwrap, writeLoop_endless fuel _ _ (by decide)] at h
      cases h

/-- A write does what is asked for every disk and buffer exactly if the range
starts beyond the end of the disk, or is inside it, spans the sector it starts
in and does not reach over 2^32. -/
theorem write_ata_iff (sectors48 sectors28 : ℕ) (hsize : 0 < size) (hs : size < 2 ^ 32)
    (hlt : offset < 2 ^ 32) :
    (∀ disk buffer, ∃ fuel r,
        writeAta (ataMaxOffset sectors48 sectors28) buffer fuel offset size ⟨disk, [], []⟩ = some r ∧
          WritesRange (ataMaxOffset sectors48 sectors28) buffer offset size disk r) ↔
      ataMaxOffset sectors48 sectors28 < offset ∨
        offset + size ≤ ataMaxOffset sectors48 sectors28 ∧ offset + size ≤ 2 ^ 32 ∧
          Spans offset size := by
  have hmod := ataMaxOffset_mod sectors48 sectors28
  constructor
  · intro h
    rcases Nat.lt_or_ge (ataMaxOffset sectors48 sectors28) offset with hbeyond | hmax
    · exact Or.inl hbeyond
    · obtain ⟨fuel, r, hrun, hr⟩ := h (fun _ => 0) (fun _ => 1)
      have hle := hr.sum_le hlt hs hmax (fun _ _ => by decide) hrun
      have hin := hr.end_le hsize hmax hmod hle hrun
      exact Or.inr ⟨hin, hle, hr.spans hsize hin hle hs hrun⟩
  · rintro (hbeyond | ⟨hin, hle, hspans⟩) disk buffer
    · exact ⟨0, _, writesRange_of_beyond buffer disk 0 hbeyond⟩
    · exact writesRange_of_spans buffer disk hsize hs hin hle hspans hmod

end Iff

/-- Bytes 100 to 1123 of a disk of four sectors. -/
theorem write_ata_iff_unaligned : Spans 100 1024 ∧ ∀ disk buffer, ∃ fuel r,
    writeAta (ataMaxOffset 0 4) buffer fuel 100 1024 ⟨disk, [], []⟩ = some r ∧
      WritesRange (ataMaxOffset 0 4) buffer 100 1024 disk r := by
  have h : Spans 100 1024 := by decide
  exact ⟨h, (write_ata_iff 0 4 (by decide) (by decide) (by decide)).mpr
    (Or.inr ⟨by decide, by decide, h⟩)⟩

/-- Five bytes written at offset 10 set 502 bytes of the disk, and a write over
the end of a disk of one sector addresses the sector behind it. -/
theorem short_write_destroys_sector :
    (∃ d, writeAta (ataMaxOffset 0 4) (fun _ => 1) 1 10 5 ⟨fun _ => 0, [], []⟩ = some (5, d) ∧
      d.disk 15 = 1 ∧ d.fetched = [(0, 502)]) ∧
    ∃ d, writeAta (ataMaxOffset 0 1) (fun _ => 1) 2 512 512 ⟨fun _ => 0, [], []⟩ = some (0, d) ∧
      1 ∈ d.addressed ∧ d.disk 512 = 1 := by
  constructor
  · have hrun : writeAta (ataMaxOffset 0 4) (fun _ => 1) 1 10 5 ⟨fun _ => 0, [], []⟩ =
        some (5, headed (fun _ => 1) 10 ⟨fun _ => 0, [], []⟩) := by
      rw [writeAta_eq _ (by decide) (by decide) (by decide),
        writeRest_no_tail _ _ _ _ (by decide), writeLoop_done (by decide) (by decide)]
      rfl
    refine ⟨_, hrun, ?_, headed_fetched _⟩
    rw [headed_disk, if_pos (by decide)]
  · have hrun : writeAta (ataMaxOffset 0 1) (fun _ => 1) 2 512 512 ⟨fun _ => 0, [], []⟩ =
        some (0, writeSectors (fun _ => 1) 1 1 0 ⟨fun _ => 0, [], []⟩) := by
      rw [writeAta_eq _ (by decide) (by decide) (by decide),
        writeRest_no_tail _ _ _ _ (by decide), writeLoop_eq (n := 1) (by decide) (by decide) (by decide)]
      rfl
    refine ⟨_, hrun, mem_writeSectors_addressed.mpr (Or.inr (by decide)), ?_⟩
    rw [writeSectors_disk, if_pos (by decide)]

end Bingos.Ata
