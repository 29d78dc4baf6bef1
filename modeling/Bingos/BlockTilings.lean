import Mathlib

set_option autoImplicit false

/-! Blocks one behind the other, each of a header of `h` bytes and a payload whose
length `size` gives for the block's address. -/
namespace Bingos.BlockTilings

/-- The blocks fill the addresses from `a` to `e` in the order of the list. -/
def Tiles (h : ℕ) (size : ℕ → ℕ) : ℕ → List ℕ → ℕ → Prop
  | a, [], e => a = e
  | a, b :: bs, e => a = b ∧ Tiles h size (b + h + size b) bs e

variable {h : ℕ} {size size' : ℕ → ℕ} {a e b : ℕ} {bs : List ℕ}

theorem Tiles.le (ht : Tiles h size a bs e) : a ≤ e := by
  induction bs generalizing a with
  | nil => exact Nat.le_of_eq ht
  | cons b bs ih =>
    obtain ⟨rfl, ht⟩ := ht
    have hle := ih ht
    omega

theorem Tiles.bounds (ht : Tiles h size a bs e) (hb : b ∈ bs) : a ≤ b ∧ b + h + size b ≤ e := by
  induction bs generalizing a with
  | nil => cases hb
  | cons c bs ih =>
    obtain ⟨rfl, ht⟩ := ht
    rcases List.mem_cons.mp hb with rfl | hb
    · exact ⟨le_rfl, ht.le⟩
    · have hin := ih ht hb
      omega

theorem Tiles.ordered (ht : Tiles h size a bs e) :
    bs.Pairwise fun b c => b + h + size b ≤ c := by
  induction bs generalizing a with
  | nil => exact List.Pairwise.nil
  | cons b bs ih =>
    obtain ⟨rfl, ht⟩ := ht
    exact List.pairwise_cons.mpr ⟨fun c hc => (ht.bounds hc).1, ih ht⟩

theorem Tiles.apart (ht : Tiles h size a bs e) {c : ℕ} (hb : b ∈ bs) (hc : c ∈ bs) (hne : b ≠ c) :
    b + h + size b ≤ c ∨ c + h + size c ≤ b := by
  induction bs generalizing a with
  | nil => cases hb
  | cons d bs ih =>
    obtain ⟨rfl, ht⟩ := ht
    rcases List.mem_cons.mp hb with rfl | hb'
    · rcases List.mem_cons.mp hc with rfl | hc'
      · exact absurd rfl hne
      · exact Or.inl (ht.bounds hc').1
    · rcases List.mem_cons.mp hc with rfl | hc'
      · exact Or.inr (ht.bounds hb').1
      · exact ih ht hb' hc'

theorem Tiles.congr (ht : Tiles h size a bs e) (hsize : ∀ b ∈ bs, size' b = size b) :
    Tiles h size' a bs e := by
  induction bs generalizing a with
  | nil => exact ht
  | cons b bs ih =>
    obtain ⟨rfl, ht⟩ := ht
    refine ⟨rfl, ?_⟩
    rw [hsize a List.mem_cons_self]
    exact ih ht fun c hc => hsize c (List.mem_cons_of_mem _ hc)

theorem Tiles.snoc (ht : Tiles h size a bs e) : Tiles h size a (bs ++ [e]) (e + h + size e) := by
  induction bs generalizing a with
  | nil => exact ⟨ht, rfl⟩
  | cons b bs ih => exact ⟨ht.1, ih ht.2⟩

end Bingos.BlockTilings
