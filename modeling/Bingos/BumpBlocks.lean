import Mathlib

set_option autoImplicit false

/-! Blocks handed out one behind the other from a rising address, some of them
padded to a boundary, and read modulo the size `M` of the address space. -/
namespace Bingos.BumpBlocks

structure Block where
  start : ℕ
  size : ℕ

def Block.Covers (b : Block) (x : ℕ) : Prop := b.start ≤ x ∧ x < b.start + b.size

def Block.bytes (M : ℕ) (b : Block) : Set ℕ := {a | ∃ i < b.size, a = (b.start + i) % M}

structure Request where
  size : ℕ
  align : Bool

/-- The blocks for a list of requests; a padded one starts at the closure of
the current address. -/
def bump (pad : ClosureOperator ℕ) : ℕ → List Request → List Block
  | _, [] => []
  | p, r :: rs =>
    ⟨if r.align then pad p else p, r.size⟩ :: bump pad ((if r.align then pad p else p) + r.size) rs

variable {pad : ClosureOperator ℕ} {M p : ℕ} {rs : List Request}

variable {b c : Block} {x : ℕ}

theorem Block.Covers.mem_bytes (h : b.Covers x) : x % M ∈ b.bytes M := by
  obtain ⟨h1, h2⟩ := h
  exact ⟨x - b.start, by omega, by rw [show b.start + (x - b.start) = x by omega]⟩

theorem Block.mem_bytes_wrap {a : ℕ} :
    a ∈ Block.bytes M ⟨b.start % M, b.size⟩ ↔ a ∈ b.bytes M := by
  simp only [Block.bytes, Set.mem_ofPred_eq, Nat.mod_add_mod]

theorem le_padded (align : Bool) : p ≤ if align then pad p else p := by
  cases align with
  | false => exact le_refl p
  | true => exact pad.le_closure p

theorem le_start (hb : b ∈ bump pad p rs) : p ≤ b.start := by
  induction rs generalizing p with
  | nil => cases hb
  | cons r rs ih =>
    have hp : p ≤ if r.align then pad p else p := le_padded r.align
    rcases List.mem_cons.mp hb with rfl | hb
    · exact hp
    · have hle := ih hb
      omega

theorem bump_ordered : (bump pad p rs).Pairwise fun b c => b.start + b.size ≤ c.start := by
  induction rs generalizing p with
  | nil => exact List.Pairwise.nil
  | cons r rs ih => exact List.pairwise_cons.mpr ⟨fun c hc => le_start hc, ih⟩

theorem size_of_mem (hb : b ∈ bump pad p rs) : ∃ r ∈ rs, b.size = r.size := by
  induction rs generalizing p with
  | nil => cases hb
  | cons r rs ih =>
    rcases List.mem_cons.mp hb with rfl | hb
    · exact ⟨r, by simp, rfl⟩
    · obtain ⟨r', hr', hsize⟩ := ih hb
      exact ⟨r', by simp [hr'], hsize⟩

theorem covered_or_padding (hx : p ≤ x) (hc : c ∈ bump pad p rs)
    (hpos : 0 < c.size) (hend : x < c.start + c.size) :
    ∃ b ∈ bump pad p rs, b.Covers x ∨ b.Covers (pad x) := by
  induction rs generalizing p x with
  | nil => cases hc
  | cons r rs ih =>
    obtain ⟨q, hq⟩ : ∃ q, q = if r.align then pad p else p := ⟨_, rfl⟩
    have hbump : bump pad p (r :: rs) = ⟨q, r.size⟩ :: bump pad (q + r.size) rs := by
      rw [hq]
      rfl
    rw [hbump] at hc ⊢
    by_cases hin : q ≤ x ∧ x < q + r.size
    · exact ⟨⟨q, r.size⟩, by simp, Or.inl hin⟩
    · by_cases hlt : x < q
      · -- The address is padding: the next boundary is where this block starts.
        have hpad : pad x = q := by
          have halign : r.align = true := by
            by_contra hno
            rw [if_neg hno] at hq
            omega
          rw [if_pos halign] at hq
          have hle : pad p ≤ pad x := pad.monotone hx
          have hge : pad x ≤ pad p := pad.le_closure_iff.mp (by omega)
          omega
        by_cases hzero : r.size = 0
        · have hctail : c ∈ bump pad (q + r.size) rs := by
            rcases List.mem_cons.mp hc with rfl | hc
            · exact absurd hzero (by simpa using hpos.ne')
            · exact hc
          have hstart := le_start hctail
          obtain ⟨b, hb, hcov⟩ := ih (p := q + r.size) (x := q) (by omega) hctail (by omega)
          have hfix : pad q = q := by rw [← hpad, pad.idempotent]
          rw [hfix, or_self] at hcov
          exact ⟨b, by simp [hb], Or.inr (hpad ▸ hcov)⟩
        · have hcov : Block.Covers ⟨q, r.size⟩ q :=
            ⟨le_refl q, Nat.lt_add_of_pos_right (Nat.pos_of_ne_zero hzero)⟩
          exact ⟨⟨q, r.size⟩, by simp, Or.inr (hpad ▸ hcov)⟩
      · have hctail : c ∈ bump pad (q + r.size) rs := by
          rcases List.mem_cons.mp hc with rfl | hc
          · exact absurd ⟨by omega, hend⟩ hin
          · exact hc
        obtain ⟨b, hb, hcov⟩ := ih (by omega) hctail hend
        exact ⟨b, by simp [hb], hcov⟩

theorem disjoint_of_within (hord : b.start + b.size ≤ c.start)
    (hspan : 0 < b.size → 0 < c.size → c.start + c.size ≤ b.start + M) :
    Disjoint (b.bytes M) (c.bytes M) := by
  rw [Set.disjoint_left]
  rintro a ⟨i, hi, hbi⟩ ⟨j, hj, hcj⟩
  have hle := hspan (by omega) (by omega)
  have hdvd : M ∣ c.start + j - (b.start + i) :=
    (Nat.modEq_iff_dvd' (by omega)).mp (hbi.symm.trans hcj)
  have hzero := Nat.eq_zero_of_dvd_of_lt hdvd (by omega)
  omega

instance : Std.Symm fun b c : Block => Disjoint (b.bytes M) (c.bytes M) :=
  ⟨fun _ _ h => h.symm⟩

theorem not_pairwise_of_covers {l : List Block} (hb : b ∈ l) (hc : c ∈ l)
    (hsize : b.size < M) (hbx : b.Covers x) (hcx : c.Covers (x + M)) :
    ¬l.Pairwise fun b c => Disjoint (b.bytes M) (c.bytes M) := by
  intro hl
  have hne : b ≠ c := by
    rintro rfl
    have h1 := hbx.1
    have h2 := hcx.2
    omega
  have hmem : x % M ∈ c.bytes M := by
    have h := hcx.mem_bytes (M := M)
    rwa [Nat.add_mod_right] at h
  exact Set.disjoint_left.mp (hl.forall hb hc hne) hbx.mem_bytes hmem

/-- The blocks are disjoint modulo `M` exactly when the span from the start of
any nonempty one to the end of any other is at most the whole space. -/
theorem pairwise_disjoint_iff (hshift : ∀ x, pad (x + M) = pad x + M)
    (hsize : ∀ r ∈ rs, r.size < M) :
    ((bump pad p rs).Pairwise fun b c => Disjoint (b.bytes M) (c.bytes M)) ↔
      ∀ b ∈ bump pad p rs, ∀ c ∈ bump pad p rs, 0 < b.size → 0 < c.size →
        c.start + c.size ≤ b.start + M := by
  have hsmall : ∀ b ∈ bump pad p rs, b.size < M := by
    intro b hb
    obtain ⟨r, hr, h⟩ := size_of_mem hb
    exact h ▸ hsize r hr
  constructor
  · intro hl b hb c hc hbpos hcpos
    by_contra hlong
    have hstart := le_start hb
    obtain ⟨d, hd, hcov⟩ := covered_or_padding (x := b.start + M) (by omega) hc hcpos (by omega)
    rcases hcov with hcov | hcov
    · exact not_pairwise_of_covers hb hd (hsmall b hb) ⟨le_refl _, by omega⟩ hcov hl
    · -- The address a space behind `b` is padding: compare the next boundaries.
      rw [hshift] at hcov
      have hle := pad.le_closure b.start
      have hdend := hcov.2
      obtain ⟨e, he, hecov⟩ := covered_or_padding (x := pad b.start) (by omega) hd
        (by have := hcov.1; omega) (by omega)
      rw [pad.idempotent, or_self] at hecov
      exact not_pairwise_of_covers he hd (hsmall e he) hecov hcov hl
  · intro hspan
    refine List.Pairwise.imp_of_mem ?_ bump_ordered
    intro b c hb hc hord
    exact disjoint_of_within hord (hspan b hb c hc)

end Bingos.BumpBlocks
