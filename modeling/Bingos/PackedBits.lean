import Mathlib

set_option autoImplicit false

/-! Bit arrays packed into 32-bit words: setting, clearing and testing one bit
through a mask, against the array of bits they stand for. -/
namespace Bingos.PackedBits

abbrev Words := ℕ → BitVec 32

def mask (i : ℕ) : BitVec 32 := 1#32 <<< (i % 32)

def set (m : Words) (i : ℕ) : Words := Function.update m (i / 32) (m (i / 32) ||| mask i)

def clear (m : Words) (i : ℕ) : Words := Function.update m (i / 32) (m (i / 32) &&& ~~~mask i)

def test (m : Words) (i : ℕ) : Bool := m (i / 32) &&& mask i != 0#32

theorem mask_getLsbD (i j : ℕ) : (mask i).getLsbD j = decide (j = i % 32) := by
  have hi : i % 32 < 32 := Nat.mod_lt i (by decide)
  rw [mask, ← BitVec.twoPow_eq, BitVec.getLsbD_twoPow, decide_eq_true hi, Bool.true_and]
  exact decide_eq_decide.mpr eq_comm

theorem test_eq (m : Words) (i : ℕ) : test m i = (m (i / 32)).getLsbD (i % 32) := by
  have hi : i % 32 < 32 := Nat.mod_lt i (by decide)
  unfold test mask
  rw [← BitVec.twoPow_eq, BitVec.and_twoPow]
  cases (m (i / 32)).getLsbD (i % 32) with
  | false => simp
  | true =>
    have hne : BitVec.twoPow 32 (i % 32) ≠ 0#32 := by
      intro h
      have hb := congrArg (fun w => w.getLsbD (i % 32)) h
      simp [hi] at hb
    simpa using hne

theorem test_set (m : Words) (i j : ℕ) : test (set m i) j = (test m j || decide (j = i)) := by
  have hj : j % 32 < 32 := Nat.mod_lt j (by decide)
  rw [test_eq, test_eq]
  by_cases hw : j / 32 = i / 32
  · have hb : (j % 32 = i % 32) ↔ j = i := by omega
    rw [set, hw, Function.update_self, BitVec.getLsbD_or, mask_getLsbD]
    simp only [hb]
  · have hne : j ≠ i := fun h => hw (h ▸ rfl)
    rw [set, Function.update_of_ne hw, decide_eq_false hne, Bool.or_false]

theorem test_clear (m : Words) (i j : ℕ) : test (clear m i) j = (test m j && decide (j ≠ i)) := by
  have hj : j % 32 < 32 := Nat.mod_lt j (by decide)
  rw [test_eq, test_eq]
  by_cases hw : j / 32 = i / 32
  · have hb : (j % 32 = i % 32) ↔ j = i := by omega
    rw [clear, hw, Function.update_self, BitVec.getLsbD_and, BitVec.getLsbD_not,
      mask_getLsbD]
    simp [hj, hb]
  · have hne : j ≠ i := fun h => hw (h ▸ rfl)
    rw [clear, Function.update_of_ne hw, decide_eq_true hne, Bool.and_true]

theorem ext_of_test {m m' : Words} (h : ∀ i, test m i = test m' i) : m = m' := by
  funext k
  apply BitVec.eq_of_getLsbD_eq
  intro j hj
  have hb := h (32 * k + j)
  rwa [test_eq, test_eq, show (32 * k + j) / 32 = k by omega,
    show (32 * k + j) % 32 = j by omega] at hb

theorem allOnes_iff (m : Words) (k : ℕ) :
    m k = 0xffffffff#32 ↔ ∀ j, j < 32 → test m (32 * k + j) = true := by
  constructor
  · intro h j hj
    rw [test_eq, show (32 * k + j) / 32 = k by omega, show (32 * k + j) % 32 = j by omega, h]
    change (BitVec.allOnes 32).getLsbD j = true
    rw [BitVec.getLsbD_allOnes, decide_eq_true hj]
  · intro h
    apply BitVec.eq_of_getLsbD_eq
    intro j hj
    have hb := h j hj
    rw [test_eq, show (32 * k + j) / 32 = k by omega, show (32 * k + j) % 32 = j by omega] at hb
    rw [hb]
    change true = (BitVec.allOnes 32).getLsbD j
    rw [BitVec.getLsbD_allOnes, decide_eq_true hj]

def Finds (bit : ℕ → Bool) (lo hi : ℕ) : Option ℕ → Prop
  | some f => lo ≤ f ∧ f < hi ∧ bit f = false ∧ ∀ g, lo ≤ g → g < f → bit g = true
  | none => ∀ g, lo ≤ g → g < hi → bit g = true

theorem Finds.skip {bit : ℕ → Bool} {lo mid hi : ℕ} {r : Option ℕ} (h : Finds bit mid hi r)
    (hle : lo ≤ mid) (hset : ∀ g, lo ≤ g → g < mid → bit g = true) : Finds bit lo hi r := by
  have hbefore : ∀ (P : ℕ → Prop), (∀ g, mid ≤ g → P g → bit g = true) →
      ∀ g, lo ≤ g → P g → bit g = true := by
    intro P hP g hg hp
    by_cases hlt : g < mid
    · exact hset g hg hlt
    · exact hP g (by omega) hp
  cases r with
  | some f =>
    obtain ⟨h1, h2, h3, h4⟩ := h
    exact ⟨by omega, h2, h3, hbefore (fun g => g < f) h4⟩
  | none => exact hbefore (fun g => g < hi) h

end Bingos.PackedBits
