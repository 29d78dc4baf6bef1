import Bingos.CStrings
import Bingos.MachineWords

set_option autoImplicit false

/-! `vsprintf`, which the kernel and the C library share, and the two ways of user
text to the console: `printf` character by character, `println` through `printk`. -/
namespace Bingos.Print
open CStrings MachineWords

def ch (c : Char) : UInt8 := UInt8.ofNat c.toNat

structure Env where
  args : ℕ → ℕ
  string : ℕ → Bytes

/-- The bytes written so far, the number of arguments taken and the stores of
`%n`. -/
structure Run where
  out : Bytes
  reads : ℕ
  stores : List (ℕ × ℕ)

def Run.put (r : Run) (bs : Bytes) : Run := { r with out := r.out ++ bs }

def Run.vaArg (env : Env) (r : Run) : ℕ × Run :=
  (env.args r.reads % 2 ^ 32, { r with reads := r.reads + 1 })

structure Flags where
  zeropad : Bool := false
  sign : Bool := false
  plus : Bool := false
  space : Bool := false
  left : Bool := false
  special : Bool := false
  small : Bool := false

def isDigit (c : UInt8) : Bool := ch '0' ≤ c ∧ c ≤ ch '9'

def skipAtoi : Bytes → ℤ → ℤ × Bytes
  | [], i => (i, [])
  | c :: fmt, i =>
    if isDigit c then skipAtoi fmt (Int.bmod (i * 10 + (c.toNat : ℤ) - 48) (2 ^ 32))
    else (i, c :: fmt)

def pad (c : UInt8) (n : ℤ) : Bytes := List.replicate n.toNat c

def upperDigits : Bytes := (List.range 10).map (fun d => UInt8.ofNat (48 + d)) ++
  (List.range 26).map fun d => UInt8.ofNat (65 + d)

def lowerDigits : Bytes := (List.range 10).map (fun d => UInt8.ofNat (48 + d)) ++
  (List.range 26).map fun d => UInt8.ofNat (97 + d)

/-- The number is unsigned in the divisions. A loop `while (size-- > 0)` leaves a
negative size. -/
def number (num base : ℕ) (size precision : ℤ) (type : Flags) : Bytes :=
  let digits := if type.small then lowerDigits else upperDigits
  let zeropad := type.zeropad && !type.left
  let c := if zeropad then ch '0' else ch ' '
  let negative : Bool := type.sign && asInt num < 0
  let num := if negative then sub32 0 num else num
  let sign : Bytes :=
    if negative then [ch '-'] else if type.plus then [ch '+'] else if type.space then [ch ' '] else []
  let mark : Bytes :=
    if type.special then
      if base = 8 then [ch '0'] else if base = 16 then [ch '0', digits.getD 33 0] else []
    else []
  let tmp := if num = 0 then [ch '0'] else (Nat.digits base num).map fun d => digits.getD d 0
  let precision := max precision tmp.length
  let size := size - sign.length - mark.length - precision
  let blanks := if zeropad || type.left then [] else pad (ch ' ') size
  let size := if zeropad || type.left then size else min size 0 - 1
  let filler := if type.left then [] else pad c size
  let size := if type.left then size else min size 0 - 1
  blanks ++ sign ++ mark ++ filler ++ pad (ch '0') (precision - tmp.length) ++ tmp.reverse ++
    pad (ch ' ') size

def parseFlags : Bytes → Flags → Flags × Bytes
  | [], flags => (flags, [])
  | c :: fmt, flags =>
    if c = ch '-' then parseFlags fmt { flags with left := true }
    else if c = ch '+' then parseFlags fmt { flags with plus := true }
    else if c = ch ' ' then parseFlags fmt { flags with space := true }
    else if c = ch '#' then parseFlags fmt { flags with special := true }
    else if c = ch '0' then parseFlags fmt { flags with zeropad := true }
    else (flags, c :: fmt)

structure Spec where
  flags : Flags
  fieldWidth : ℤ
  precision : ℤ
  fmt : Bytes
  run : Run

/-- A `*` takes an argument and is not skipped. -/
def getWidth (env : Env) (s : Spec) : Spec :=
  if isDigit (s.fmt.headD 0) then
    { s with fieldWidth := (skipAtoi s.fmt 0).1, fmt := (skipAtoi s.fmt 0).2 }
  else if s.fmt.headD 0 = ch '*' then
    let a := s.run.vaArg env
    if asInt a.1 < 0 then
      { s with
        fieldWidth := Int.bmod (-asInt a.1) (2 ^ 32)
        flags := { s.flags with left := true }
        run := a.2 }
    else { s with fieldWidth := asInt a.1, run := a.2 }
  else { s with fieldWidth := -1 }

def getPrecision (env : Env) (s : Spec) : Spec :=
  if s.fmt.headD 0 = ch '.' then
    let s := { s with fmt := s.fmt.tail }
    let s :=
      if isDigit (s.fmt.headD 0) then
        { s with precision := (skipAtoi s.fmt 0).1, fmt := (skipAtoi s.fmt 0).2 }
      else if s.fmt.headD 0 = ch '*' then
        let a := s.run.vaArg env
        { s with precision := asInt a.1, run := a.2 }
      else { s with precision := -1 }
    { s with precision := max s.precision 0 }
  else { s with precision := -1 }

def getQualifier (s : Spec) : Spec :=
  if s.fmt.headD 0 = ch 'h' ∨ s.fmt.headD 0 = ch 'l' ∨ s.fmt.headD 0 = ch 'L' then
    { s with fmt := s.fmt.tail }
  else s

def putChar (env : Env) (s : Spec) : Run :=
  let a := s.run.vaArg env
  let blanks := pad (ch ' ') (s.fieldWidth - 1)
  a.2.put (if s.flags.left then UInt8.ofNat a.1 :: blanks else blanks ++ [UInt8.ofNat a.1])

def putString (env : Env) (s : Spec) : Run :=
  let a := s.run.vaArg env
  let text := env.string a.1
  let text := if s.precision < 0 then text else text.take s.precision.toNat
  let blanks := pad (ch ' ') (s.fieldWidth - text.length)
  a.2.put (if s.flags.left then text ++ blanks else blanks ++ text)

def putNumber (env : Env) (s : Spec) (base : ℕ) (fieldWidth : ℤ) (flags : Flags) : Run :=
  let a := s.run.vaArg env
  a.2.put (number a.1 base fieldWidth s.precision flags)

/-- The conversion letters; `none` is the default case. -/
def convertLetter (env : Env) (s : Spec) (c : UInt8) : Option Run :=
  if c = ch 'c' then some (putChar env s)
  else if c = ch 's' then some (putString env s)
  else if c = ch 'o' then some (putNumber env s 8 s.fieldWidth s.flags)
  else if c = ch 'p' then
    if s.fieldWidth = -1 then some (putNumber env s 16 8 { s.flags with zeropad := true })
    else some (putNumber env s 16 s.fieldWidth s.flags)
  else if c = ch 'x' then some (putNumber env s 16 s.fieldWidth { s.flags with small := true })
  else if c = ch 'X' then some (putNumber env s 16 s.fieldWidth s.flags)
  else if c = ch 'd' ∨ c = ch 'i' then
    some (putNumber env s 10 s.fieldWidth { s.flags with sign := true })
  else if c = ch 'u' then some (putNumber env s 10 s.fieldWidth s.flags)
  else if c = ch 'n' then
    let a := s.run.vaArg env
    some { a.2 with stores := a.2.stores ++ [(a.1, s.run.out.length)] }
  else none

/-- The conversion itself: the format behind it and the run. At the end of the
format nothing is skipped. -/
def conversion (env : Env) (s : Spec) : Bytes × Run :=
  match s.fmt with
  | [] => ([], s.run.put [ch '%'])
  | c :: fmt =>
    (fmt, (convertLetter env s c).getD
      (s.run.put (if c = ch '%' then [ch '%'] else [ch '%', c])))

def readSpec (env : Env) (fmt : Bytes) (r : Run) : Spec :=
  let p := parseFlags fmt {}
  getQualifier (getPrecision env (getWidth env ⟨p.1, -1, -1, p.2, r⟩))

def directive (env : Env) (fmt : Bytes) (r : Run) : Bytes × Run := conversion env (readSpec env fmt r)

section Lengths
variable {env : Env}

theorem skipAtoi_length (fmt : Bytes) (i : ℤ) : (skipAtoi fmt i).2.length ≤ fmt.length := by
  induction fmt generalizing i with
  | nil => exact le_rfl
  | cons c fmt ih =>
    rw [skipAtoi]
    split_ifs
    · exact (ih _).trans (Nat.le_succ _)
    · exact le_rfl

theorem parseFlags_length (fmt : Bytes) (flags : Flags) :
    (parseFlags fmt flags).2.length ≤ fmt.length := by
  induction fmt generalizing flags with
  | nil => exact le_rfl
  | cons c fmt ih =>
    rw [parseFlags]
    split_ifs
    iterate 5 exact (ih _).trans (Nat.le_succ _)
    exact le_rfl

theorem getWidth_length (s : Spec) : (getWidth env s).fmt.length ≤ s.fmt.length := by
  unfold getWidth
  dsimp only
  split_ifs
  · exact skipAtoi_length _ _
  all_goals exact Nat.le_refl _

theorem length_tail_le (fmt : Bytes) : fmt.tail.length ≤ fmt.length := by
  rw [List.length_tail]
  exact Nat.sub_le _ _

theorem getPrecision_length (s : Spec) : (getPrecision env s).fmt.length ≤ s.fmt.length := by
  unfold getPrecision
  dsimp only
  split_ifs
  · exact (skipAtoi_length _ _).trans (length_tail_le _)
  · exact length_tail_le _
  · exact length_tail_le _
  · exact le_rfl

theorem getQualifier_length (s : Spec) : (getQualifier s).fmt.length ≤ s.fmt.length := by
  unfold getQualifier
  split_ifs
  · exact length_tail_le _
  · exact le_rfl

theorem readSpec_length (fmt : Bytes) (r : Run) : (readSpec env fmt r).fmt.length ≤ fmt.length :=
  calc (readSpec env fmt r).fmt.length
      ≤ _ := getQualifier_length _
    _ ≤ _ := getPrecision_length _
    _ ≤ _ := getWidth_length _
    _ ≤ fmt.length := parseFlags_length fmt {}

theorem directive_length (fmt : Bytes) (r : Run) : (directive env fmt r).1.length ≤ fmt.length := by
  have hlen : (readSpec env fmt r).fmt.length ≤ fmt.length := readSpec_length fmt r
  unfold directive conversion
  cases hs : (readSpec env fmt r).fmt with
  | nil => exact Nat.zero_le _
  | cons c rest =>
    rw [hs] at hlen
    exact (Nat.le_succ _).trans hlen

end Lengths

def vsprintfLoop (env : Env) (fmt : Bytes) (r : Run) : Run :=
  match fmt with
  | [] => r
  | c :: fmt =>
    if c ≠ ch '%' then vsprintfLoop env fmt (r.put [c])
    else vsprintfLoop env (directive env fmt r).1 (directive env fmt r).2
termination_by fmt.length
decreasing_by
  · exact Nat.lt_succ_self _
  · exact Nat.lt_succ_of_le (directive_length fmt r)

def vsprintf (env : Env) (fmt : Bytes) : Run := vsprintfLoop env fmt ⟨[], 0, []⟩

/-- The characters on the console, the arguments taken by `printk` and the bytes
written to its buffer. -/
structure Display where
  shown : Bytes
  reads : ℕ
  written : ℕ
  deriving DecidableEq

def printk (env : Env) (fmt : Bytes) : Display :=
  let r := vsprintf env fmt
  ⟨cstr r.out 0 ++ [0x0a], r.reads, r.out.length + 1⟩

def sysPrintln (kernel : Env) (msg : Bytes) : Display := printk kernel msg

def printf (user : Env) (fmt : Bytes) : Bytes := cstr (vsprintf user fmt).out 0

def println (user kernel : Env) (fmt : Bytes) : Display :=
  sysPrintln kernel (cstr (vsprintf user fmt).out 0)

end Bingos.Print
