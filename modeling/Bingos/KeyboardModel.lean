import Mathlib

set_option autoImplicit false

/-! The keyboard interrupt handler of `modules/kbd.c`. A key of the table that is a character has
its code; of the others only the low byte matters once they are released. -/
namespace Bingos.Keyboard

def keyEscape : ℕ := 0x1001
def keyReturn : ℕ := 0x0d
def keyBackspace : ℕ := 0x08
def keyKpNumlock : ℕ := 0x300f
def keyTab : ℕ := 0x4000
def keyCapslock : ℕ := 0x4001
def keyLshift : ℕ := 0x4002
def keyLctrl : ℕ := 0x4003
def keyLalt : ℕ := 0x4004
def keyRshift : ℕ := 0x4006
def keyRctrl : ℕ := 0x4007
def keyRalt : ℕ := 0x4008
def keyHome : ℕ := 0x400c
def keyPageup : ℕ := 0x400e
def keyScrolllock : ℕ := 0x4010
def keyUnknown : ℕ := 0x4012

def chars (text : String) : List ℕ := text.toList.map Char.toNat

/-- `_kkybrd_scancode_std`. Six keys of the keypad have no entry, so that those behind them stand six
places before the codes their comments give. -/
def kkybrdScancodeStd : List ℕ :=
  [keyUnknown, keyEscape] ++ chars "1234567890-=" ++ [keyBackspace, keyTab] ++
    chars "qwertyuiop[]" ++ [keyReturn, keyLctrl] ++ chars "asdfghjkl;" ++ [0x27, 0x60, keyLshift,
    0x5c] ++ chars "zxcvbnm,./" ++ [keyRshift] ++ chars "*" ++ [keyRalt] ++ chars " " ++
    [keyCapslock, 0x1201, 0x1202, 0x1203, 0x1204, 0x1205, 0x1206, 0x1207, 0x1208, 0x1209, 0x120a,
    keyKpNumlock, keyScrolllock, keyHome] ++ chars "8" ++ [keyPageup] ++ chars "230." ++
    [keyUnknown, keyUnknown, keyUnknown, 0x120b, 0x120b]

structure Kbd where
  scancode : ℕ
  shift : Bool
  alt : Bool
  ctrl : Bool
  capslock : Bool
  numlock : Bool
  scrolllock : Bool
  batRes : ℕ
  diagRes : ℕ
  resendRes : ℕ
  /-- The bytes sent to the encoder. -/
  commands : List ℕ

def start : Kbd := ⟨0, false, false, false, false, false, false, 0, 0, 0, []⟩

def shiftDigit (key : ℕ) : ℕ :=
  if key = 0x30 then 0x29
  else if key = 0x31 then 0x21
  else if key = 0x32 then 0x40
  else if key = 0x33 then 0x21
  else if key = 0x34 then 0x23
  else if key = 0x35 then 0x25
  else if key = 0x36 then 0x5e
  else if key = 0x37 then 0x26
  else if key = 0x38 then 0x2a
  else if key = 0x39 then 0x28
  else key

def shiftMark (key : ℕ) : ℕ :=
  if key = 0x2c then 0x3c
  else if key = 0x2e then 0x3e
  else if key = 0x2f then 0x3f
  else if key = 0x3b then 0x3a
  else if key = 0x27 then 0x22
  else if key = 0x5b then 0x7b
  else if key = 0x5d then 0x7d
  else if key = 0x60 then 0x7e
  else if key = 0x2d then 0x5f
  else if key = 0x2b then 0x3d
  else if key = 0x5c then 0x7c
  else key

def kkybrdKeyToAscii (shift capslock : Bool) (code : ℕ) : UInt8 :=
  let key := code % 2 ^ 8
  if key ≤ 0x7f then
    let key := if (shift ∨ capslock) ∧ 0x61 ≤ key ∧ key ≤ 0x7a then key - 32 else key
    if shift ∧ ¬ capslock then
      if 0x30 ≤ key ∧ key ≤ 0x39 then UInt8.ofNat (shiftDigit key) else UInt8.ofNat (shiftMark key)
    else UInt8.ofNat key
  else 0

/-- `kkybrd_set_leds`: of its three assignments to `data` the last one counts. -/
def kkybrdSetLeds (s : Kbd) : Kbd :=
  let data := if s.capslock then s.numlock.toNat ||| 4 else s.numlock.toNat &&& 4
  { s with commands := s.commands ++ [0xed, data] }

def release (s : Kbd) (key : ℕ) : Kbd :=
  if key = keyLctrl ∨ key = keyRctrl then { s with ctrl := false }
  else if key = keyLshift ∨ key = keyRshift then { s with shift := false }
  else if key = keyLalt ∨ key = keyRalt then { s with alt := false }
  else s

def press (s : Kbd) (key : ℕ) : Kbd :=
  if key = keyLctrl ∨ key = keyRctrl then { s with ctrl := true }
  else if key = keyLshift ∨ key = keyRshift then { s with shift := true }
  else if key = keyLalt ∨ key = keyRalt then { s with alt := true }
  else if key = keyCapslock then kkybrdSetLeds { s with capslock := !s.capslock }
  else if key = keyKpNumlock then kkybrdSetLeds { s with numlock := !s.numlock }
  else if key = keyScrolllock then kkybrdSetLeds { s with scrolllock := !s.scrolllock }
  else s

def errors (s : Kbd) (code : ℕ) : Kbd :=
  if code = 0xfc then { s with batRes := 0 }
  else if code = 0xfd then { s with diagRes := 0 }
  else if code = 0xfe then { s with resendRes := 1 }
  else s

/-- One interrupt with a byte in the output buffer: the state after it and the bytes written to the
pipe. A code behind the end of the table has no result. -/
def kbdCallback (s : Kbd) (code : ℕ) : Option (Kbd × List UInt8) :=
  if code = 0xe0 ∨ code = 0xe1 then some (errors s code, [])
  else if code &&& 0x80 ≠ 0 then
    let code := code - 0x80
    kkybrdScancodeStd[code]?.map fun key =>
      (errors (release s key) code, [kkybrdKeyToAscii s.shift s.capslock key])
  else
    kkybrdScancodeStd[code]?.map fun key => (errors (press { s with scancode := code } key) code, [])

def kbdRun (s : Kbd) (codes : List ℕ) : Option (Kbd × List UInt8) :=
  codes.foldlM (fun r code => (kbdCallback r.1 code).map fun t => (t.1, r.2 ++ t.2)) (s, [])

end Bingos.Keyboard
