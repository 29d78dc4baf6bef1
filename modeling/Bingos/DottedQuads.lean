import Bingos.PrintModel

set_option autoImplicit false

/-! `ip_ntoa` and `ip_aton` of `net.c`. The text of an address goes through the decimal formatter of
the kernel, and back through a local buffer of 16 bytes, which is cut into four numbers in place.
An access outside the buffer has no result. -/
namespace Bingos.DottedQuads
open CStrings Print

/-- The search of `lfind`, and with 0 that of `strlen`: the index of a byte. -/
def lfindLoop (accept : UInt8) : Bytes → ℕ → Option ℕ
  | [], _ => none
  | c :: str, i => if c ≠ accept then lfindLoop accept str (i + 1) else some i

def lfind (buffer : Bytes) (str : ℕ) (accept : UInt8) : Option ℕ :=
  lfindLoop accept (buffer.drop str) str

def strlen (buffer : Bytes) (str : ℕ) : Option ℕ := lfindLoop 0 (buffer.drop str) 0

def isspace (c : UInt8) : Bool := c = ch ' ' ∨ 9 ≤ c ∧ c < 14

def skipSpaces : Bytes → Option Bytes
  | [] => none
  | c :: str => if isspace c then skipSpaces str else some (c :: str)

def atoiDigits : Bytes → ℤ → Option ℤ
  | [], _ => none
  | c :: str, n =>
    if isDigit c then atoiDigits str (Int.bmod (10 * n - ((c.toNat : ℤ) - 48)) (2 ^ 32)) else some n

def atoi (buffer : Bytes) (s : ℕ) : Option ℤ :=
  match skipSpaces (buffer.drop s) with
  | none => none
  | some [] => none
  | some (c :: str) =>
    if c = ch '-' then atoiDigits str 0
    else
      (atoiDigits (if c = ch '+' then str else c :: str) 0).map fun n => Int.bmod (-n) (2 ^ 32)

/-- What is on the stack, with the text of `in` or its first 15 bytes copied over it. -/
def copyText (stack : Bytes) (text : Bytes) : Option Bytes :=
  (strlen text 0).map fun len =>
    let count := if len < 15 then len + 1 else 15
    (text.take count ++ stack.drop count).set 15 0

/-- One number of the address: the next dot becomes the end of a string. The number, the buffer and
the place behind the string. -/
def readField (ip : Bytes) (c : ℕ) : Option (ℤ × Bytes × ℕ) :=
  (lfind ip c (ch '.')).bind fun i =>
    let ip := ip.set i 0
    (atoi ip c).bind fun out => (strlen ip c).map fun len => (out, ip, c + len + 1)

def joinFields (out₀ out₁ out₂ out₃ : ℤ) : BitVec 32 :=
  (BitVec.ofInt 32 out₀ <<< 24) ||| (BitVec.ofInt 32 out₁ <<< 16) ||| (BitVec.ofInt 32 out₂ <<< 8) |||
    BitVec.ofInt 32 out₃

/-- `text` is what stands at `in`, and `stack` what the local buffer holds at first. -/
def ipAton (stack : Fin 16 → UInt8) (text : Bytes) : Option (BitVec 32) :=
  (copyText (List.ofFn stack) text).bind fun ip =>
    (readField ip 0).bind fun r₀ =>
      (readField r₀.2.1 r₀.2.2).bind fun r₁ =>
        (readField r₁.2.1 r₁.2.2).bind fun r₂ =>
          (atoi r₂.2.1 r₂.2.2).map fun out => joinFields r₀.1 r₁.1 r₂.1 out

def quadFormat : Bytes :=
  [ch '%', ch 'd', ch '.', ch '%', ch 'd', ch '.', ch '%', ch 'd', ch '.', ch '%', ch 'd']

def octets (a : BitVec 32) : List (BitVec 32) :=
  [(a &&& 0xFF000000) >>> 24, (a &&& 0xFF0000) >>> 16, (a &&& 0xFF00) >>> 8, a &&& 0xFF]

def ipNtoa (a : BitVec 32) : Bytes :=
  (vsprintf ⟨fun i => ((octets a).getD i 0).toNat, fun _ => []⟩ quadFormat).out ++ [0]

variable {rest text buffer : Bytes} {c accept : UInt8} {d n s : ℕ}

/-! The formatter on `%d` and on plain characters. -/
section Format
variable {env : Env} {fmt : Bytes} {r : Run}

def decimal (n : ℕ) : Bytes := number n 10 (-1) (-1) { sign := true }

theorem vsprintfLoop_d : vsprintfLoop env (ch '%' :: ch 'd' :: fmt) r =
    vsprintfLoop env fmt
      ⟨r.out ++ decimal (env.args r.reads % 2 ^ 32), r.reads + 1, r.stores⟩ := by
  rw [vsprintfLoop, if_neg (by decide)]
  rfl

theorem vsprintfLoop_dot :
    vsprintfLoop env (ch '.' :: fmt) r = vsprintfLoop env fmt (r.put [ch '.']) := by
  rw [vsprintfLoop, if_pos (by decide)]

theorem vsprintfLoop_nil : vsprintfLoop env [] r = r := by
  rw [vsprintfLoop]

theorem decimal_eq (h : n < 2 ^ 31) : decimal n =
    (if n = 0 then [ch '0'] else (Nat.digits 10 n).map fun d => upperDigits.getD d 0).reverse := by
  have hsign : ¬ MachineWords.asInt n < 0 := by
    rw [MachineWords.asInt]
    split_ifs <;> omega
  simp [decimal, number, hsign, pad]

end Format

/-! Decimal texts and their values. -/
section Decimal

def value (text : Bytes) (n : ℕ) : ℕ := text.foldl (fun n c => 10 * n + (c.toNat - 48)) n

theorem le_value (text : Bytes) (n : ℕ) : n ≤ value text n := by
  induction text generalizing n with
  | nil => exact le_rfl
  | cons c text ih =>
    have hstep : n ≤ 10 * n + (c.toNat - 48) := by omega
    exact hstep.trans (ih _)

structure IsOctet (text : Bytes) (n : ℕ) : Prop where
  digits : ∀ c ∈ text, isDigit c = true
  nonempty : text ≠ []
  length : text.length ≤ 3
  value_eq : value text 0 = n

theorem upperDigits_getD (h : d < 10) : upperDigits.getD d 0 = UInt8.ofNat (48 + d) := by
  interval_cases d <;> rfl

theorem toNat_digit (h : d < 10) : (UInt8.ofNat (48 + d)).toNat = 48 + d := by
  rw [UInt8.toNat_ofNat']
  omega

theorem isDigit_digit (h : d < 10) : isDigit (UInt8.ofNat (48 + d)) = true := by
  interval_cases d <;> rfl

theorem value_reverse_digits (ds : List ℕ) (h : ∀ d ∈ ds, d < 10) :
    value (ds.map fun d => upperDigits.getD d 0).reverse 0 = Nat.ofDigits 10 ds := by
  rw [value, List.foldl_reverse]
  induction ds with
  | nil => rfl
  | cons d ds ih =>
    have hd := h d List.mem_cons_self
    rw [List.map_cons, List.foldr_cons, ih fun x hx => h x (List.mem_cons_of_mem d hx),
      upperDigits_getD hd, toNat_digit hd, Nat.ofDigits_cons]
    omega

theorem isOctet_decimal (h : n < 256) : IsOctet (decimal n) n := by
  rw [decimal_eq (by omega)]
  by_cases hn : n = 0
  · subst hn
    rw [if_pos rfl, List.reverse_singleton]
    refine ⟨fun c hc => ?_, List.cons_ne_nil _ _, by decide, rfl⟩
    rw [List.mem_singleton.mp hc]
    rfl
  · rw [if_neg hn]
    have hlt : ∀ d ∈ Nat.digits 10 n, d < 10 := fun d hd => Nat.digits_lt_base (by decide) hd
    refine ⟨fun c hc => ?_, ?_, ?_, ?_⟩
    · obtain ⟨d, hd, rfl⟩ := List.mem_map.mp (List.mem_reverse.mp hc)
      rw [upperDigits_getD (hlt d hd)]
      exact isDigit_digit (hlt d hd)
    · simpa [Nat.digits_ne_nil_iff_ne_zero] using hn
    · rw [List.length_reverse, List.length_map, Nat.digits_length_le_iff (by decide)]
      omega
    · rw [value_reverse_digits _ hlt, Nat.ofDigits_digits]

theorem IsOctet.ne (h : IsOctet text n) (ha : isDigit accept = false) : ∀ c ∈ text, c ≠ accept := by
  rintro c hc rfl
  rw [h.digits c hc] at ha
  cases ha

theorem IsOctet.lt (h : IsOctet text n) : value text 0 < 1000 := by
  have hdigit : ∀ c ∈ text, c.toNat - 48 < 10 := by
    intro c hc
    have hc := h.digits c hc
    simp only [isDigit, decide_eq_true_eq, UInt8.le_iff_toNat_le] at hc
    have hhigh : c.toNat ≤ 57 := hc.2
    omega
  have hlen := h.length
  rcases text with _ | ⟨x, _ | ⟨y, _ | ⟨z, _ | ⟨w, text⟩⟩⟩⟩
  · decide
  all_goals simp only [List.forall_mem_cons, List.length_cons] at hdigit hlen
  all_goals simp only [value, List.foldl_cons, List.foldl_nil]
  all_goals omega

end Decimal

/-! The scans of the buffer. -/
section Scans

theorem lfindLoop_eq (h : ∀ c ∈ text, c ≠ accept) (i : ℕ) :
    lfindLoop accept (text ++ accept :: rest) i = some (i + text.length) := by
  induction text generalizing i with
  | nil => simp [lfindLoop]
  | cons c text ih =>
    rw [List.cons_append, lfindLoop, if_pos (h c List.mem_cons_self),
      ih (fun x hx => h x (List.mem_cons_of_mem c hx)), List.length_cons, Nat.add_assoc,
      Nat.add_comm 1]

theorem atoiDigits_eq (hc : isDigit c = false)
    (h : ∀ d ∈ text, isDigit d = true) (n : ℕ) (hsmall : value text n < 2 ^ 31) :
    atoiDigits (text ++ c :: rest) (-(n : ℤ)) = some (-(value text n : ℤ)) := by
  induction text generalizing n with
  | nil => simp [atoiDigits, hc, value]
  | cons d text ih =>
    have hd := h d List.mem_cons_self
    have hlow : 48 ≤ d.toNat := by
      simp only [isDigit, decide_eq_true_eq, UInt8.le_iff_toNat_le] at hd
      exact hd.1
    change value text (10 * n + (d.toNat - 48)) < 2 ^ 31 at hsmall
    have hle := le_value text (10 * n + (d.toNat - 48))
    have hnext : Int.bmod (10 * -(n : ℤ) - ((d.toNat : ℤ) - 48)) (2 ^ 32) =
        -((10 * n + (d.toNat - 48) : ℕ) : ℤ) := by
      rw [Int.bmod_eq_of_le_mul_two] <;> omega
    rw [List.cons_append, atoiDigits, if_pos hd, hnext,
      ih (fun x hx => h x (List.mem_cons_of_mem d hx)) _ hsmall]
    rfl

theorem isspace_of_isDigit (h : isDigit c = true) :
    isspace c = false ∧ c ≠ ch '-' ∧ c ≠ ch '+' := by
  simp only [isDigit, decide_eq_true_eq, UInt8.le_iff_toNat_le] at h
  have hlow : 48 ≤ c.toNat := h.1
  have hne : ∀ d : UInt8, d.toNat < 48 → c ≠ d := by
    rintro d hd rfl
    omega
  refine ⟨?_, hne _ (by decide), hne _ (by decide)⟩
  simp only [isspace, decide_eq_false_iff_not, UInt8.le_iff_toNat_le, UInt8.lt_iff_toNat_lt]
  rintro (heq | ⟨-, hlt⟩)
  · exact hne _ (by decide) heq
  · have hlt : c.toNat < 14 := hlt
    omega

theorem atoi_eq (hc : isDigit c = false)
    (h : IsOctet text n) (hdrop : buffer.drop s = text ++ c :: rest) :
    atoi buffer s = some (n : ℤ) := by
  have hvalue : atoiDigits (text ++ c :: rest) (-((0 : ℕ) : ℤ)) = some (-(value text 0 : ℤ)) :=
    atoiDigits_eq hc h.digits 0 (by have := h.lt; omega)
  cases text with
  | nil => exact absurd rfl h.nonempty
  | cons d text =>
    obtain ⟨hspace, hminus, hplus⟩ := isspace_of_isDigit (h.digits d List.mem_cons_self)
    have hskip : skipSpaces (d :: text ++ c :: rest) = some (d :: (text ++ c :: rest)) := by
      rw [List.cons_append, skipSpaces, hspace]
      rfl
    have hlt := h.lt
    rw [h.value_eq] at hvalue hlt
    rw [atoi, hdrop, hskip]
    simp only [if_neg hminus, if_neg hplus]
    rw [List.cons_append] at hvalue
    rw [show (0 : ℤ) = -((0 : ℕ) : ℤ) from rfl, hvalue, Option.map_some, neg_neg,
      Int.bmod_eq_of_le_mul_two] <;> omega

end Scans

theorem drop_set_end (hdrop : buffer.drop s = text ++ c :: rest) (d : UInt8) :
    (buffer.set (s + text.length) d).drop s = text ++ d :: rest := by
  rw [List.drop_set, if_neg (by omega), hdrop, Nat.add_sub_cancel_left,
    List.set_append_right _ _ le_rfl, Nat.sub_self, List.set_cons_zero]

/-- A round on a number and its dot: the number is read, and what follows is left in place. -/
theorem readField_eq {ip : Bytes} {c : ℕ} (h : IsOctet text n)
    (hdrop : ip.drop c = text ++ ch '.' :: rest) :
    ∃ ip' c', readField ip c = some ((n : ℤ), ip', c') ∧ ip'.drop c' = rest := by
  have hset := drop_set_end hdrop 0
  have hfind : lfind ip c (ch '.') = some (c + text.length) := by
    rw [lfind, hdrop]
    exact lfindLoop_eq (h.ne (by decide)) c
  have hlen : strlen (ip.set (c + text.length) 0) c = some text.length := by
    rw [strlen, hset, lfindLoop_eq (h.ne (by decide)), Nat.zero_add]
  refine ⟨ip.set (c + text.length) 0, c + text.length + 1, ?_, drop_next hset⟩
  simp only [readField, hfind, Option.bind_some, atoi_eq (by decide) h hset, hlen, Option.map_some]

theorem copyText_eq (stack : Fin 16 → UInt8) (rest : Bytes)
    (h : ∀ c ∈ text, c ≠ 0) (hlen : text.length ≤ 15) :
    ∃ ip junk, copyText (List.ofFn stack) (text ++ 0 :: rest) = some ip ∧
      ip = text ++ 0 :: junk := by
  have hfind : strlen (text ++ 0 :: rest) 0 = some text.length := by
    rw [strlen, List.drop_zero, lfindLoop_eq h, Nat.zero_add]
  have hstack : (List.ofFn stack).length = 16 := List.length_ofFn
  rw [copyText, hfind, Option.map_some]
  by_cases hshort : text.length < 15
  · -- The terminator is copied too; byte 15 is behind it.
    have htake : (text ++ 0 :: rest).take (text.length + 1) = text ++ [0] := by
      rw [List.take_append, Nat.add_sub_cancel_left, List.take_of_length_le (Nat.le_succ _)]
      rfl
    refine ⟨_, ((List.ofFn stack).drop (text.length + 1)).set (15 - (text.length + 1)) 0, rfl, ?_⟩
    simp only [if_pos hshort, htake]
    rw [List.set_append_right _ _ (by simp; omega), List.append_assoc, List.length_append]
    rfl
  · have heq : text.length = 15 := by omega
    obtain ⟨x, hx⟩ : ∃ x, (List.ofFn stack).drop 15 = [x] :=
      List.length_eq_one_iff.mp (by rw [List.length_drop, hstack])
    refine ⟨_, [], rfl, ?_⟩
    simp only [if_neg hshort, hx]
    rw [List.take_left' heq, List.set_append_right _ _ (by omega), heq]
    rfl

/-! The four numbers of an address. -/
section Octets

theorem octets_join (a : BitVec 32) : (((a &&& 0xFF000000) >>> 24) <<< 24) |||
    (((a &&& 0xFF0000) >>> 16) <<< 16) ||| (((a &&& 0xFF00) >>> 8) <<< 8) ||| (a &&& 0xFF) = a := by
  have hmask : ∀ (k : ℕ) (mask : BitVec 32),
      ((a &&& mask) >>> k) <<< k = a &&& ((mask >>> k) <<< k) := by
    intro k mask
    ext i hi
    by_cases hk : i < k
    · simp [hk]
    · simp [hk, show k + (i - k) = i by omega, BitVec.getLsbD_eq_getElem hi]
  rw [hmask, hmask, hmask, ← BitVec.and_or_distrib_left, ← BitVec.and_or_distrib_left,
    ← BitVec.and_or_distrib_left]
  change a &&& BitVec.allOnes 32 = a
  exact BitVec.and_allOnes

theorem octets_lt (a : BitVec 32) : ∀ o ∈ octets a, o.toNat < 256 := by
  have hshift : ∀ (k : ℕ) (mask : BitVec 32), mask.toNat >>> k = 0xFF →
      ((a &&& mask) >>> k).toNat < 256 := by
    intro k mask hmask
    rw [BitVec.toNat_ushiftRight, BitVec.toNat_and, Nat.shiftRight_and_distrib, hmask]
    exact Nat.lt_succ_of_le Nat.and_le_right
  intro o ho
  simp only [octets, List.mem_cons, List.not_mem_nil, or_false] at ho
  rcases ho with rfl | rfl | rfl | rfl
  · exact hshift 24 _ (by decide)
  · exact hshift 16 _ (by decide)
  · exact hshift 8 _ (by decide)
  · exact hshift 0 _ (by decide)

theorem ipNtoa_eq (a : BitVec 32) : ipNtoa a =
    decimal ((a &&& 0xFF000000) >>> 24).toNat ++ ch '.' ::
      (decimal ((a &&& 0xFF0000) >>> 16).toNat ++ ch '.' ::
        (decimal ((a &&& 0xFF00) >>> 8).toNat ++ ch '.' ::
          (decimal (a &&& 0xFF).toNat ++ [0]))) := by
  have hmod : ∀ o : BitVec 32, o.toNat % 2 ^ 32 = o.toNat := fun o => Nat.mod_eq_of_lt o.isLt
  simp only [ipNtoa, vsprintf, quadFormat, vsprintfLoop_d, vsprintfLoop_dot, vsprintfLoop_nil,
    Run.put, octets, List.getD_cons_zero, List.getD_cons_succ, hmod, List.nil_append,
    List.append_assoc, List.cons_append]

end Octets

/-- The text of an address has at most 15 characters, and `ip_aton` reads the address back from it
without leaving its buffer. -/
theorem dotted_quad_round_trip (a : BitVec 32) (stack : Fin 16 → UInt8) (rest : Bytes) :
    (∃ text, ipNtoa a = text ++ [0] ∧ 0 ∉ text ∧ text.length ≤ 15) ∧
      ipAton stack (ipNtoa a ++ rest) = some a := by
  obtain ⟨h₀, h₁, h₂, h₃⟩ : IsOctet (decimal ((a &&& 0xFF000000) >>> 24).toNat) _ ∧
      IsOctet (decimal ((a &&& 0xFF0000) >>> 16).toNat) _ ∧
      IsOctet (decimal ((a &&& 0xFF00) >>> 8).toNat) _ ∧ IsOctet (decimal (a &&& 0xFF).toNat) _ := by
    have hlt := octets_lt a
    simp only [octets, List.forall_mem_cons] at hlt
    exact ⟨isOctet_decimal hlt.1, isOctet_decimal hlt.2.1, isOctet_decimal hlt.2.2.1,
      isOctet_decimal hlt.2.2.2.1⟩
  rw [ipNtoa_eq]
  generalize hd₀ : decimal ((a &&& 0xFF000000) >>> 24).toNat = d₀ at h₀ ⊢
  generalize hd₁ : decimal ((a &&& 0xFF0000) >>> 16).toNat = d₁ at h₁ ⊢
  generalize hd₂ : decimal ((a &&& 0xFF00) >>> 8).toNat = d₂ at h₂ ⊢
  generalize hd₃ : decimal (a &&& 0xFF).toNat = d₃ at h₃ ⊢
  have htext : d₀ ++ ch '.' :: (d₁ ++ ch '.' :: (d₂ ++ ch '.' :: (d₃ ++ [0]))) =
      d₀ ++ ch '.' :: (d₁ ++ ch '.' :: (d₂ ++ ch '.' :: d₃)) ++ [0] := by simp
  have hlen : (d₀ ++ ch '.' :: (d₁ ++ ch '.' :: (d₂ ++ ch '.' :: d₃))).length ≤ 15 := by
    have hlen₀ := h₀.length
    have hlen₁ := h₁.length
    have hlen₂ := h₂.length
    have hlen₃ := h₃.length
    simp only [List.length_append, List.length_cons]
    omega
  have hnul : ∀ c ∈ d₀ ++ ch '.' :: (d₁ ++ ch '.' :: (d₂ ++ ch '.' :: d₃)), c ≠ 0 := by
    intro c hc
    simp only [List.mem_append, List.mem_cons] at hc
    rcases hc with hc | rfl | hc | rfl | hc | rfl | hc
    · exact h₀.ne (by decide) c hc
    · decide
    · exact h₁.ne (by decide) c hc
    · decide
    · exact h₂.ne (by decide) c hc
    · decide
    · exact h₃.ne (by decide) c hc
  refine ⟨⟨_, htext, fun hmem => hnul 0 hmem rfl, hlen⟩, ?_⟩
  obtain ⟨ip, junk, hcopy, hip⟩ := copyText_eq stack rest hnul hlen
  have hstart : ip.drop 0 = d₀ ++ ch '.' :: (d₁ ++ ch '.' :: (d₂ ++ ch '.' :: (d₃ ++ 0 :: junk))) := by
    rw [hip]
    simp
  obtain ⟨ip₀, c₀, hread₀, hdrop₀⟩ := readField_eq h₀ hstart
  obtain ⟨ip₁, c₁, hread₁, hdrop₁⟩ := readField_eq h₁ hdrop₀
  obtain ⟨ip₂, c₂, hread₂, hdrop₂⟩ := readField_eq h₂ hdrop₁
  have hlast := atoi_eq (by decide) h₃ hdrop₂
  rw [htext, List.append_assoc, List.singleton_append]
  simp only [ipAton, hcopy, hread₀, hread₁, hread₂, hlast, Option.bind_some, Option.map_some,
    joinFields, BitVec.ofInt_natCast, BitVec.ofNat_toNat, BitVec.setWidth_eq, octets_join]

end Bingos.DottedQuads
