import Mathlib

set_option autoImplicit false

/-! NUL-terminated strings in a buffer of bytes. -/
namespace Bingos.CStrings

abbrev Bytes := List UInt8

def cstr (b : Bytes) (p : ℕ) : Bytes := (b.drop p).takeWhile (· ≠ 0)

def strlen (b : Bytes) (p : ℕ) : ℕ := (cstr b p).length

def encode (cs : List Bytes) : Bytes := cs.flatMap (· ++ [0])

@[simp] theorem encode_nil : encode [] = [] := rfl

theorem encode_cons (c : Bytes) (cs : List Bytes) : encode (c :: cs) = c ++ 0 :: encode cs := by
  simp [encode]

theorem encode_append (cs ds : List Bytes) : encode (cs ++ ds) = encode cs ++ encode ds := by
  simp [encode]

theorem cstr_of_drop {b c rest : Bytes} {p : ℕ} (hc : 0 ∉ c) (h : b.drop p = c ++ 0 :: rest) :
    cstr b p = c := by
  rw [cstr, h, List.takeWhile_append_of_pos]
  · simp
  · intro x hx
    have hne : x ≠ 0 := by
      rintro rfl
      exact hc hx
    simpa using hne

theorem cstr_cons (x : UInt8) (a : Bytes) :
    cstr (x :: a) 0 = if x = 0 then [] else x :: cstr a 0 := by
  by_cases hx : x = 0
  · simp [cstr, hx]
  · simp [cstr, hx]

theorem cstr_notMem (b : Bytes) (p : ℕ) : 0 ∉ cstr b p := fun h => by
  simpa using List.mem_takeWhile_imp h

theorem cstr_of_notMem {msg : Bytes} (h : 0 ∉ msg) : cstr msg 0 = msg := by
  rw [cstr, List.drop_zero, List.takeWhile_eq_self_iff]
  intro c hc
  rw [decide_eq_true_iff]
  rintro rfl
  exact h hc

theorem drop_next {b c rest : Bytes} {p : ℕ} (h : b.drop p = c ++ 0 :: rest) :
    b.drop (p + c.length + 1) = rest := by
  rw [Nat.add_assoc, ← List.drop_drop, h, List.drop_append]
  simp

theorem eq_foldl_cstr {σ : Type} {f : σ → Bytes → σ} {put : σ → UInt8 → σ}
    (hnil : ∀ s, f s [] = put s 0x0a)
    (hcons : ∀ s c msg, f s (c :: msg) = if c = 0 then put s 0x0a else f (put s c) msg)
    (s : σ) (msg : Bytes) : f s msg = (cstr msg 0 ++ [0x0a]).foldl put s := by
  induction msg generalizing s with
  | nil => exact hnil s
  | cons c msg ih =>
    rw [hcons, cstr_cons]
    by_cases hc : c = 0
    · rw [if_pos hc, if_pos hc]
      rfl
    · rw [if_neg hc, if_neg hc, ih]
      rfl

end Bingos.CStrings
