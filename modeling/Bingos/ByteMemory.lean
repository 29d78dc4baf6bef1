import Bingos.CStrings

set_option autoImplicit false

/-! Bytes behind 32-bit addresses, which wrap around, and little-endian numbers. -/
namespace Bingos.ByteMemory

open CStrings

def toLE : ℕ → ℕ → Bytes
  | 0, _ => []
  | w + 1, v => UInt8.ofNat v :: toLE w (v / 256)

def ofLE : Bytes → ℕ
  | [] => 0
  | b :: bs => b.toNat + 256 * ofLE bs

@[simp] theorem length_toLE (w v : ℕ) : (toLE w v).length = w := by
  induction w generalizing v with
  | zero => rfl
  | succ w ih => rw [toLE, List.length_cons, ih]

theorem ofLE_toLE (w v : ℕ) : ofLE (toLE w v) = v % 256 ^ w := by
  induction w generalizing v with
  | zero => simp [toLE, ofLE, Nat.mod_one]
  | succ w ih =>
    have hpow : 256 ^ (w + 1) = 256 * 256 ^ w := Nat.pow_succ'
    rw [toLE, ofLE, ih, UInt8.toNat_ofNat', hpow]
    exact Nat.mod_mul.symm

theorem ofLE_replicate_zero (w : ℕ) : ofLE (List.replicate w 0) = 0 := by
  induction w with
  | zero => rfl
  | succ w ih => rw [List.replicate_succ, ofLE, ih]; rfl

theorem ofLE_lt (bs : Bytes) : ofLE bs < 256 ^ bs.length := by
  induction bs with
  | nil => simp [ofLE]
  | cons b bs ih =>
    have hb : b.toNat < 256 := b.toNat_lt
    rw [ofLE, List.length_cons, Nat.pow_succ']
    omega

theorem ofLE_toLE_of_lt {w v : ℕ} (h : v < 256 ^ w) : ofLE (toLE w v) = v := by
  rw [ofLE_toLE, Nat.mod_eq_of_lt h]

theorem ofLE_toLE_four (v : ℕ) : ofLE (toLE 4 v) = v % 2 ^ 32 := by
  rw [ofLE_toLE]
  norm_num

theorem toLE_ofLE (bs : Bytes) : toLE bs.length (ofLE bs) = bs := by
  induction bs with
  | nil => rfl
  | cons b bs ih =>
    have hb : b.toNat < 256 := b.toNat_lt
    have hlow : UInt8.ofNat (b.toNat + 256 * ofLE bs) = b := by
      rw [← UInt8.toNat_inj, UInt8.toNat_ofNat']
      omega
    rw [List.length_cons, toLE, ofLE, hlow, show (b.toNat + 256 * ofLE bs) / 256 = ofLE bs by omega,
      ih]

theorem ofLE_append (xs ys : Bytes) : ofLE (xs ++ ys) = ofLE xs + 256 ^ xs.length * ofLE ys := by
  induction xs with
  | nil => simp [ofLE]
  | cons x xs ih =>
    rw [List.cons_append, ofLE, ofLE, ih, List.length_cons, Nat.pow_succ']
    ring

theorem testBit_ofLE (bs : Bytes) (k : ℕ) {j : ℕ} (hj : j < 8) :
    (ofLE bs).testBit (8 * k + j) = (bs.getD k 0).toNat.testBit j := by
  induction bs generalizing k with
  | nil => simp [ofLE]
  | cons b bs ih =>
    have hb : b.toNat < 2 ^ 8 := b.toNat_lt
    rw [ofLE, Nat.add_comm, show (256 : ℕ) = 2 ^ 8 by decide, Nat.testBit_two_pow_mul_add _ hb]
    cases k with
    | zero => rw [if_pos (by omega), Nat.mul_zero, Nat.zero_add, List.getD_cons_zero]
    | succ k =>
      rw [if_neg (by omega), show 8 * (k + 1) + j - 8 = 8 * k + j by omega, ih,
        List.getD_cons_succ]

abbrev Memory := ℕ → UInt8

def load (m : Memory) (a n : ℕ) : Bytes := (List.range n).map fun i => m ((a + i) % 2 ^ 32)

def store (m : Memory) (a : ℕ) (bs : Bytes) : Memory := fun b =>
  bs.getD ((b + (2 ^ 32 - a % 2 ^ 32)) % 2 ^ 32) (m b)

def load32 (m : Memory) (a : ℕ) : ℕ := ofLE (load m a 4)

def store32 (m : Memory) (a v : ℕ) : Memory := store m a (toLE 4 v)

@[simp] theorem length_load (m : Memory) (a n : ℕ) : (load m a n).length = n := by simp [load]

variable {bs : Bytes} {m m' : Memory} {a b n : ℕ}

theorem load_eq_iff :
    load m a bs.length = bs ↔ ∀ i (hi : i < bs.length), m ((a + i) % 2 ^ 32) = bs[i] := by
  constructor
  · intro h i hi
    have hget : (load m a bs.length)[i]? = bs[i]? := by rw [h]
    simpa [load, hi] using hget
  · intro h
    refine List.ext_getElem (length_load m a _) fun i h₁ h₂ => ?_
    rw [← h i h₂]
    simp [load]

theorem load_append (m : Memory) (a n k : ℕ) :
    load m a (n + k) = load m a n ++ load m (a + n) k := by
  simp [load, List.range_add, Nat.add_assoc]

theorem load_part {A x B : Bytes} (h : load m a n = A ++ (x ++ B)) :
    load m (a + A.length) x.length = x := by
  have hn : n = (A ++ (x ++ B)).length := by rw [← h, length_load]
  rw [hn, List.length_append, load_append] at h
  have htail := (List.append_inj h (length_load _ _ _)).2
  rw [List.length_append, load_append] at htail
  exact (List.append_inj htail (length_load _ _ _)).1

theorem load_congr (m : Memory) (n : ℕ) (h : a % 2 ^ 32 = b % 2 ^ 32) :
    load m a n = load m b n := by
  refine List.map_congr_left fun i _ => ?_
  rw [Nat.add_mod, h, ← Nat.add_mod]

theorem load_window
    (h : ∀ k < n, m ((a + k) % 2 ^ 32) = m' ((b + k) % 2 ^ 32)) {i w : ℕ} (hin : i + w ≤ n) :
    load m (a + i) w = load m' (b + i) w := by
  refine List.map_congr_left fun k hk => ?_
  rw [List.mem_range] at hk
  rw [Nat.add_assoc, Nat.add_assoc]
  exact h (i + k) (by omega)

theorem store_congr (m : Memory) (bs : Bytes) (h : a % 2 ^ 32 = b % 2 ^ 32) :
    store m a bs = store m b bs := by
  funext c
  rw [store, store, h]

theorem store_at {i : ℕ} (hi : i < bs.length)
    (hlen : bs.length ≤ 2 ^ 32) : store m a bs ((a + i) % 2 ^ 32) = bs[i] := by
  have hindex : ((a + i) % 2 ^ 32 + (2 ^ 32 - a % 2 ^ 32)) % 2 ^ 32 = i := by omega
  rw [store, hindex, List.getD_eq_getElem _ _ hi]

theorem store_off
    (h : ∀ i < bs.length, (a + i) % 2 ^ 32 ≠ b) (hb : b < 2 ^ 32) : store m a bs b = m b := by
  rw [store, List.getD_eq_default]
  by_contra hlt
  refine h _ (Nat.not_le.mp hlt) ?_
  omega

theorem load_store_self (hlen : bs.length ≤ 2 ^ 32) :
    load (store m a bs) a bs.length = bs :=
  load_eq_iff.mpr fun _ hi => store_at hi hlen

theorem load32_store32 (m : Memory) (a v : ℕ) : load32 (store32 m a v) a = v % 2 ^ 32 := by
  have hlen : (toLE 4 v).length ≤ 2 ^ 32 := by
    rw [length_toLE]
    decide
  have hload : load (store m a (toLE 4 v)) a (toLE 4 v).length = toLE 4 v := load_store_self hlen
  rw [length_toLE] at hload
  rw [load32, store32, hload, ofLE_toLE_four]

theorem store32_load32 (m : Memory) (a b : ℕ) :
    store32 m a (load32 m b) = store m a (load m b 4) := by
  have h := toLE_ofLE (load m b 4)
  rw [length_load] at h
  rw [store32, load32, h]

theorem load_store_apart (h : ∀ i < bs.length, ∀ j < n, (a + i) % 2 ^ 32 ≠ (b + j) % 2 ^ 32) :
    load (store m a bs) b n = load m b n := by
  refine List.map_congr_left fun j hj => ?_
  exact store_off (fun i hi => h i hi j (List.mem_range.mp hj)) (Nat.mod_lt _ (by decide))

theorem load_of_agree (hn : a + n ≤ 2 ^ 32)
    (h : ∀ x, a ≤ x → x < a + n → m' x = m x) : load m' a n = load m a n := by
  refine List.map_congr_left fun i hi => ?_
  rw [List.mem_range] at hi
  have hmod : (a + i) % 2 ^ 32 = a + i := Nat.mod_eq_of_lt (by omega)
  rw [hmod]
  exact h (a + i) (by omega) (by omega)

theorem load32_of_agree (ha : a + 4 ≤ 2 ^ 32)
    (h : ∀ x, a ≤ x → x < a + 4 → m' x = m x) : load32 m' a = load32 m a := by
  rw [load32, load32, load_of_agree ha h]

theorem store32_off {x : ℕ} (v : ℕ) (ha : a + 4 ≤ 2 ^ 32) (hx : x < 2 ^ 32)
    (h : x < a ∨ a + 4 ≤ x) : store32 m a v x = m x := by
  refine store_off (fun i hi => ?_) hx
  rw [length_toLE] at hi
  omega

theorem load32_store32_apart (v : ℕ) (ha : a + 4 ≤ 2 ^ 32)
    (hb : b + 4 ≤ 2 ^ 32) (h : a + 4 ≤ b ∨ b + 4 ≤ a) :
    load32 (store32 m a v) b = load32 m b :=
  load32_of_agree hb fun _ _ _ => store32_off v ha (by omega) (by omega)

theorem load_store_part {A x y B : Bytes} (h : load m a (A ++ (x ++ B)).length = A ++ (x ++ B))
    (hy : y.length = x.length) (hlen : (A ++ (x ++ B)).length ≤ 2 ^ 32) :
    load (store m (a + A.length) y) a (A ++ (y ++ B)).length = A ++ (y ++ B) := by
  simp only [List.length_append] at h hlen ⊢
  rw [load_append, load_append] at h ⊢
  obtain ⟨hA, h⟩ := List.append_inj h (length_load _ _ _)
  obtain ⟨-, hB⟩ := List.append_inj h (length_load _ _ _)
  rw [load_store_self (by omega), load_store_apart, hA, load_store_apart, hy, hB]
  · intro i hi j hj
    omega
  · intro i hi j hj
    omega

def loadCString (m : Memory) (a : ℕ) : ℕ → Option Bytes
  | 0 => none
  | room + 1 =>
    if m (a % 2 ^ 32) = 0 then some []
    else (loadCString m (a + 1) room).map (m (a % 2 ^ 32) :: ·)

theorem loadCString_eq {room : ℕ} {c : Bytes} (hc : 0 ∉ c)
    (h : load m a (c ++ [0]).length = c ++ [0]) (hroom : c.length < room) :
    loadCString m a room = some c := by
  induction c generalizing a room with
  | nil =>
    obtain ⟨r, rfl⟩ := Nat.exists_eq_succ_of_ne_zero (Nat.pos_iff_ne_zero.mp hroom)
    have hbyte := load_eq_iff.mp h 0 (by simp)
    rw [loadCString, if_pos (by simpa using hbyte)]
  | cons x c ih =>
    obtain ⟨r, rfl⟩ := Nat.exists_eq_succ_of_ne_zero (Nat.pos_iff_ne_zero.mp (Nat.zero_lt_of_lt hroom))
    have hbyte : m (a % 2 ^ 32) = x := load_eq_iff.mp h 0 (by simp)
    have hx : x ≠ 0 := by
      rintro rfl
      exact hc List.mem_cons_self
    have hrest : load m (a + 1) (c ++ [0]).length = c ++ [0] := by
      have hpart := load_part (A := [x]) (x := c ++ [0]) (B := []) (by simpa using h)
      simpa using hpart
    rw [loadCString, if_neg (by rw [hbyte]; exact hx), hbyte,
      ih (fun h0 => hc (List.mem_cons_of_mem _ h0)) hrest (by simpa using hroom), Option.map_some]

theorem loadCString_congr {e : ℕ} (room : ℕ) (hend : m ((a + e) % 2 ^ 32) = 0)
    (hsame : ∀ k ≤ e, m' ((a + k) % 2 ^ 32) = m ((a + k) % 2 ^ 32)) :
    loadCString m' a room = loadCString m a room := by
  induction room generalizing a e with
  | zero => rfl
  | succ room ih =>
    have hfirst : m' (a % 2 ^ 32) = m (a % 2 ^ 32) := hsame 0 (Nat.zero_le e)
    rw [loadCString, loadCString, hfirst]
    split_ifs with hzero
    · rfl
    · cases e with
      | zero => exact absurd hend hzero
      | succ e =>
        have hshift : ∀ k, a + 1 + k = a + (k + 1) := fun k => by omega
        rw [ih (e := e) (by rw [hshift]; exact hend) fun k hk => by
          rw [hshift]
          exact hsame (k + 1) (by omega)]

end Bingos.ByteMemory
