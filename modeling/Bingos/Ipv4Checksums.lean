import Mathlib

set_option autoImplicit false

/-! The header checksum of `net.c`, against the ones'-complement sum that receivers of a packet
take over the ten words of its header. -/
namespace Bingos.Ipv4Checksums

/-! Ones'-complement sums of 16-bit words. -/
section OnesComplement

def foldCarries (sum : ℕ) : ℕ :=
  if 0xFFFF < sum then foldCarries (sum / 0x10000 + sum % 0x10000) else sum
termination_by sum
decreasing_by omega

theorem foldCarries_eq (sum : ℕ) :
    foldCarries sum = if sum = 0 then 0 else (sum - 1) % 0xFFFF + 1 := by
  induction sum using Nat.strong_induction_on with
  | _ sum ih =>
    rw [foldCarries]
    by_cases hcarry : 0xFFFF < sum
    · rw [if_pos hcarry, ih _ (by omega), if_neg (by omega), if_neg (by omega)]
      omega
    · rw [if_neg hcarry]
      split_ifs with hzero
      · exact hzero
      · omega

def onesComplementSum (ws : List ℕ) : ℕ := foldCarries ws.sum

end OnesComplement

structure Ipv4Packet where
  versionIhl : BitVec 8
  dscpEcn : BitVec 8
  length : BitVec 16
  ident : BitVec 16
  flagsFragment : BitVec 16
  ttl : BitVec 8
  protocol : BitVec 8
  checksum : BitVec 16
  source : BitVec 32
  destination : BitVec 32

def htons (s : BitVec 16) : BitVec 16 := ((s &&& 0xFF) <<< 8) ||| ((s &&& 0xFF00) >>> 8)

def ntohs (s : BitVec 16) : BitVec 16 := htons s

namespace Ipv4Packet

/-- The packed struct as an array of ten `uint16_t`; the byte at the lower address is the low
one. -/
def words (p : Ipv4Packet) : List (BitVec 16) :=
  [p.dscpEcn ++ p.versionIhl, p.length, p.ident, p.flagsFragment, p.protocol ++ p.ttl, p.checksum,
    p.source.extractLsb' 0 16, p.source.extractLsb' 16 16, p.destination.extractLsb' 0 16,
    p.destination.extractLsb' 16 16]

end Ipv4Packet

def sumWords (ws : List (BitVec 16)) : BitVec 32 :=
  ws.foldl (fun sum s => sum + (ntohs s).setWidth 32) 0

def calculateIpv4Checksum (p : Ipv4Packet) : BitVec 16 :=
  let sum := sumWords p.words
  let sum := if 0xFFFF#32 < sum then (sum >>> 16) + (sum &&& 0xFFFF) else sum
  (~~~(sum &&& 0xFFFF) &&& 0xFFFF).setWidth 16

def bigEndian (w : BitVec 16) : ℕ := 0x100 * (w.toNat % 0x100) + w.toNat / 0x100

def Ipv4Packet.bigEndianWords (p : Ipv4Packet) : List ℕ := p.words.map bigEndian

def Ipv4Packet.withChecksum (p : Ipv4Packet) : Ipv4Packet :=
  { p with checksum := htons (calculateIpv4Checksum p) }

theorem toNat_htons (s : BitVec 16) : (htons s).toNat = bigEndian s := by
  have hs : s.toNat < 2 ^ 16 := s.isLt
  have hlow : s.toNat &&& 0xFF = s.toNat % 0x100 := Nat.and_two_pow_sub_one_eq_mod s.toNat 8
  have hhigh : (s.toNat &&& 0xFF00) >>> 8 = s.toNat / 0x100 := by
    rw [Nat.shiftRight_and_distrib, Nat.shiftRight_eq_div_pow]
    change s.toNat / 0x100 &&& 0xFF = _
    rw [Nat.and_two_pow_sub_one_eq_mod _ 8]
    omega
  rw [htons, BitVec.toNat_or, BitVec.toNat_shiftLeft, BitVec.toNat_ushiftRight, BitVec.toNat_and,
    BitVec.toNat_and]
  change (s.toNat &&& 0xFF) <<< 8 % 2 ^ 16 ||| (s.toNat &&& 0xFF00) >>> 8 = _
  rw [hlow, hhigh, Nat.mod_eq_of_lt (by rw [Nat.shiftLeft_eq]; omega),
    ← Nat.shiftLeft_add_eq_or_of_lt (by omega), Nat.shiftLeft_eq, bigEndian]
  omega

theorem bigEndian_lt (w : BitVec 16) : bigEndian w < 0x10000 := by
  have hw : w.toNat < 2 ^ 16 := w.isLt
  rw [bigEndian]
  omega

theorem bigEndian_htons (w : BitVec 16) : bigEndian (htons w) = w.toNat := by
  have hw : w.toNat < 2 ^ 16 := w.isLt
  rw [bigEndian, toNat_htons, bigEndian]
  omega

theorem sumWords_from (ws : List (BitVec 16)) (sum : BitVec 32)
    (h : sum.toNat + 0x10000 * ws.length < 2 ^ 32) :
    (ws.foldl (fun sum s => sum + (ntohs s).setWidth 32) sum).toNat =
      sum.toNat + (ws.map bigEndian).sum := by
  induction ws generalizing sum with
  | nil => rfl
  | cons w ws ih =>
    have hw := bigEndian_lt w
    rw [List.length_cons] at h
    have hsum : (sum + (ntohs w).setWidth 32).toNat = sum.toNat + bigEndian w := by
      rw [BitVec.toNat_add, BitVec.toNat_setWidth, ntohs, toNat_htons]
      omega
    rw [List.foldl_cons, ih _ (by omega), hsum, List.map_cons, List.sum_cons, Nat.add_assoc]

theorem toNat_sumWords (p : Ipv4Packet) : (sumWords p.words).toNat = p.bigEndianWords.sum := by
  have hlength : p.words.length = 10 := rfl
  rw [sumWords, sumWords_from p.words 0 (by rw [hlength]; decide)]
  exact Nat.zero_add _

theorem toNat_mask (x : BitVec 32) : (x &&& 0xFFFF).toNat = x.toNat % 0x10000 := by
  rw [BitVec.toNat_and]
  exact Nat.and_two_pow_sub_one_eq_mod x.toNat 16

theorem toNat_calculateIpv4Checksum (p : Ipv4Packet) : (calculateIpv4Checksum p).toNat =
    0xFFFF - (p.bigEndianWords.sum / 0x10000 + p.bigEndianWords.sum % 0x10000) % 0x10000 := by
  have hcomplement : ∀ x : BitVec 32,
      ((~~~(x &&& 0xFFFF) &&& 0xFFFF).setWidth 16).toNat = 0xFFFF - x.toNat % 0x10000 := by
    intro x
    rw [BitVec.toNat_setWidth, toNat_mask, BitVec.toNat_not, toNat_mask]
    omega
  have hsum := toNat_sumWords p
  have hlt := (sumWords p.words).isLt
  simp only [calculateIpv4Checksum, hcomplement]
  by_cases hcarry : 0xFFFF#32 < sumWords p.words
  · rw [if_pos hcarry, BitVec.toNat_add, toNat_mask, BitVec.toNat_ushiftRight, hsum,
      Nat.shiftRight_eq_div_pow]
    omega
  · have hsmall : (sumWords p.words).toNat ≤ 0xFFFF := Nat.not_lt.mp hcarry
    rw [if_neg hcarry, hsum]
    omega

theorem sum_withChecksum {p : Ipv4Packet} (h : p.checksum = 0) :
    p.withChecksum.bigEndianWords.sum =
      p.bigEndianWords.sum + (calculateIpv4Checksum p).toNat := by
  have hzero : bigEndian p.checksum = 0 := by
    rw [h]
    rfl
  simp only [Ipv4Packet.bigEndianWords, Ipv4Packet.words, Ipv4Packet.withChecksum, List.map_cons,
    List.map_nil, List.sum_cons, List.sum_nil, bigEndian_htons, hzero]
  omega

/-- A header with its checksum verifies exactly if one folding takes the carries of the sum of its
words in. -/
theorem ipv4_checksum_verifies_iff (p : Ipv4Packet) (h : p.checksum = 0) :
    onesComplementSum p.withChecksum.bigEndianWords = 0xFFFF ↔
      p.bigEndianWords.sum / 0x10000 + p.bigEndianWords.sum % 0x10000 ≤ 0xFFFF := by
  have hlt : p.bigEndianWords.sum < 2 ^ 32 := by
    rw [← toNat_sumWords]
    exact (sumWords p.words).isLt
  rw [onesComplementSum, foldCarries_eq, sum_withChecksum h, toNat_calculateIpv4Checksum]
  generalize p.bigEndianWords.sum = sum at hlt ⊢
  by_cases hfold : sum / 0x10000 + sum % 0x10000 ≤ 0xFFFF
  · have htotal : sum + (0xFFFF - (sum / 0x10000 + sum % 0x10000) % 0x10000) =
        0xFFFF * (sum / 0x10000 + 1) := by omega
    rw [htotal, if_neg (by omega)]
    omega
  · have htotal : sum + (0xFFFF - (sum / 0x10000 + sum % 0x10000) % 0x10000) =
        0xFFFF * (sum / 0x10000 + 2) + 1 := by omega
    rw [htotal, if_neg (by omega)]
    omega

def dhcpHeader : Ipv4Packet where
  versionIhl := 0x45
  dscpEcn := 0
  length := htons 277
  ident := htons 1
  flagsFragment := 0
  ttl := 0x40
  protocol := 17
  checksum := 0
  source := 0
  destination := 0xFFFFFFFF

theorem dhcpHeader_verifies : dhcpHeader.checksum = 0 ∧
    onesComplementSum dhcpHeader.withChecksum.bigEndianWords = 0xFFFF :=
  ⟨rfl, (ipv4_checksum_verifies_iff dhcpHeader rfl).mpr (by decide)⟩

/-- Words whose sum is 0x1FFFF: folding it makes 0x10000, of which the checksum sees 0. -/
def carryHeader : Ipv4Packet where
  versionIhl := 0x45
  dscpEcn := 0
  length := htons 0xBAFF
  ident := 0
  flagsFragment := 0
  ttl := 0
  protocol := 0
  checksum := 0
  source := 0x0000FFFF
  destination := 0x00000100

theorem carry_of_folding_lost : carryHeader.checksum = 0 ∧
    onesComplementSum carryHeader.withChecksum.bigEndianWords = 1 := by
  refine ⟨rfl, ?_⟩
  rw [onesComplementSum, foldCarries_eq]
  decide

end Bingos.Ipv4Checksums
