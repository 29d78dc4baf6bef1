import Mathlib

set_option autoImplicit false

/-! Unsigned 32-bit arithmetic on natural representatives. Every operation
reduces its result, so a value computed from arbitrary naturals is a word. -/
namespace Bingos.MachineWords

def add32 (a b : ℕ) : ℕ := (a + b) % 2 ^ 32

def sub32 (a b : ℕ) : ℕ := (a + (2 ^ 32 - b % 2 ^ 32)) % 2 ^ 32

/-- The signed reading of a 32-bit word. -/
def asInt (a : ℕ) : ℤ :=
  if a % 2 ^ 32 < 2 ^ 31 then ((a % 2 ^ 32 : ℕ) : ℤ) else ((a % 2 ^ 32 : ℕ) : ℤ) - 2 ^ 32

theorem add32_of_lt {a b : ℕ} (h : a + b < 2 ^ 32) : add32 a b = a + b :=
  Nat.mod_eq_of_lt h

theorem sub32_of_le {a b : ℕ} (ha : a < 2 ^ 32) (h : b ≤ a) : sub32 a b = a - b := by
  unfold sub32
  omega

theorem toInt_ofNat_of_lt {n : ℕ} (h : n < 2 ^ 31) : (BitVec.ofNat 32 n).toInt = n := by
  have hn : (BitVec.ofNat 32 n).toNat = n := by
    rw [BitVec.toNat_ofNat, Nat.mod_eq_of_lt (by omega)]
  rw [BitVec.toInt_eq_toNat_of_lt (by omega), hn]

end Bingos.MachineWords
