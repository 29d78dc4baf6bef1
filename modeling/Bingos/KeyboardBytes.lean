import Bingos.KeyboardModel

set_option autoImplicit false

/-! What the keyboard writes to its pipe, read off the scan codes. -/
namespace Bingos.Keyboard

def IsShift (code : ℕ) : Prop := code % 128 = 0x2a ∨ code % 128 = 0x36

instance (code : ℕ) : Decidable (IsShift code) := inferInstanceAs (Decidable (_ ∨ _))

def shiftAfter (codes : List ℕ) : Bool :=
  (codes.reverse.find? fun code => decide (IsShift code)).any fun code => code < 0x80

def capslockAfter (codes : List ℕ) : Bool := codes.count 0x3a % 2 = 1

/-- The byte for a code after those before: one for each release, none for a press. -/
def byteAfter (before : List ℕ) (code : ℕ) : Option UInt8 :=
  if code = 0xe0 ∨ code = 0xe1 ∨ code < 0x80 then none
  else some (kkybrdKeyToAscii (shiftAfter before) (capslockAfter before)
    (kkybrdScancodeStd.getD (code - 0x80) 0))

def bytesOf (codes : List ℕ) : List UInt8 :=
  (List.range codes.length).filterMap fun i => byteAfter (codes.take i) (codes.getD i 0)

/-- The table has an entry for the code, or the code is one of the two that are skipped. -/
def InTable (code : ℕ) : Prop := code = 0xe0 ∨ code = 0xe1 ∨ code % 128 < 83

instance (code : ℕ) : Decidable (InTable code) := inferInstanceAs (Decidable (_ ∨ _))

theorem shiftAfter_snoc (codes : List ℕ) (code : ℕ) :
    shiftAfter (codes ++ [code]) =
      if IsShift code then decide (code < 0x80) else shiftAfter codes := by
  rw [shiftAfter, List.reverse_append, List.reverse_singleton, List.singleton_append,
    List.find?_cons]
  by_cases h : IsShift code <;> simp [h, shiftAfter]

theorem capslockAfter_snoc (codes : List ℕ) (code : ℕ) :
    capslockAfter (codes ++ [code]) =
      if code = 0x3a then !capslockAfter codes else capslockAfter codes := by
  rw [capslockAfter, List.count_append, List.count_singleton]
  by_cases h : code = 0x3a
  · simp only [h, beq_self_eq_true, if_true, capslockAfter]
    rw [← decide_not, decide_eq_decide]
    omega
  · simp [h, capslockAfter]

theorem bytesOf_snoc (codes : List ℕ) (code : ℕ) :
    bytesOf (codes ++ [code]) = bytesOf codes ++ (byteAfter codes code).toList := by
  rw [bytesOf, List.length_append, List.length_singleton, List.range_succ, List.filterMap_append]
  congr 1
  · apply List.filterMap_congr
    intro i hi
    have hlt := List.mem_range.mp hi
    rw [List.take_append_of_le_length hlt.le, List.getD_append _ _ _ _ hlt]
  · have hlast : (codes ++ [code]).getD codes.length 0 = code := by simp
    rw [List.filterMap_cons, List.take_left, hlast]
    cases byteAfter codes code <;> rfl

section Keys
variable {s : Kbd} {key : ℕ}

theorem ctrl_not_shift (h : key = keyLctrl ∨ key = keyRctrl) :
    ¬ (key = keyLshift ∨ key = keyRshift) := by
  simp only [keyLctrl, keyRctrl, keyLshift, keyRshift] at h ⊢
  omega

theorem capslock_alone (h : key = keyCapslock) : ¬ (key = keyLctrl ∨ key = keyRctrl) ∧
    ¬ (key = keyLshift ∨ key = keyRshift) ∧ ¬ (key = keyLalt ∨ key = keyRalt) := by
  simp only [keyLctrl, keyRctrl, keyLshift, keyRshift, keyLalt, keyRalt, keyCapslock] at h ⊢
  omega

theorem release_shift : (release s key).shift =
    if key = keyLshift ∨ key = keyRshift then false else s.shift := by
  unfold release
  by_cases hctrl : key = keyLctrl ∨ key = keyRctrl
  · rw [if_pos hctrl, if_neg (ctrl_not_shift hctrl)]
  · rw [if_neg hctrl]
    split_ifs <;> rfl

theorem release_capslock : (release s key).capslock = s.capslock := by
  unfold release
  split_ifs <;> rfl

theorem press_shift : (press s key).shift =
    if key = keyLshift ∨ key = keyRshift then true else s.shift := by
  unfold press
  by_cases hctrl : key = keyLctrl ∨ key = keyRctrl
  · rw [if_pos hctrl, if_neg (ctrl_not_shift hctrl)]
  · rw [if_neg hctrl]
    split_ifs <;> rfl

theorem press_capslock : (press s key).capslock =
    if key = keyCapslock then !s.capslock else s.capslock := by
  unfold press
  by_cases hcaps : key = keyCapslock
  · obtain ⟨hctrl, hshift, halt⟩ := capslock_alone hcaps
    rw [if_neg hctrl, if_neg hshift, if_neg halt, if_pos hcaps, if_pos hcaps]
    rfl
  · rw [if_neg hcaps, if_neg hcaps]
    split_ifs <;> rfl

theorem errors_modifiers (code : ℕ) :
    (errors s code).shift = s.shift ∧ (errors s code).capslock = s.capslock := by
  unfold errors
  split_ifs <;> exact ⟨rfl, rfl⟩

theorem table_modifiers (i : Fin 83) :
    ((kkybrdScancodeStd.getD i 0 = keyLshift ∨ kkybrdScancodeStd.getD i 0 = keyRshift) ↔
      i.val = 0x2a ∨ i.val = 0x36) ∧
    (kkybrdScancodeStd.getD i 0 = keyCapslock ↔ i.val = 0x3a) := by
  revert i
  decide +kernel

end Keys

structure Tracks (codes : List ℕ) (s : Kbd) : Prop where
  shift : s.shift = shiftAfter codes
  capslock : s.capslock = capslockAfter codes

section Runs
variable {codes : List ℕ} {s : Kbd} {code : ℕ}

theorem and_top_bit (h : code < 256) : code &&& 0x80 ≠ 0 ↔ 0x80 ≤ code := by
  have hall : ∀ c : Fin 256, c.val &&& 0x80 ≠ 0 ↔ 0x80 ≤ c.val := by decide +kernel
  exact hall ⟨code, h⟩

theorem getElem?_table (h : code < 83) :
    kkybrdScancodeStd[code]? = some (kkybrdScancodeStd.getD code 0) := by
  rw [List.getD_eq_getElem?_getD, List.getElem?_eq_getElem (by exact h), Option.getD_some]

theorem Tracks.release (h : Tracks codes s) (hbreak : 0x80 ≤ code) (hkey : code - 0x80 < 83) :
    Tracks (codes ++ [code])
      (errors (release s (kkybrdScancodeStd.getD (code - 0x80) 0)) (code - 0x80)) := by
  obtain ⟨hshift, hcaps⟩ := table_modifiers ⟨code - 0x80, hkey⟩
  dsimp only at hshift
  constructor
  · rw [(errors_modifiers _).1, release_shift, shiftAfter_snoc, h.shift]
    refine if_ctx_congr ?_ (fun _ => ?_) fun _ => rfl
    · rw [hshift, IsShift]
      omega
    · rw [decide_eq_false (by omega)]
  · rw [(errors_modifiers _).2, release_capslock, capslockAfter_snoc, if_neg (by omega), h.capslock]

theorem Tracks.press (h : Tracks codes s) (hkey : code < 83) (scancode : ℕ) :
    Tracks (codes ++ [code])
      (errors (press { s with scancode } (kkybrdScancodeStd.getD code 0)) code) := by
  obtain ⟨hshift, hcaps⟩ := table_modifiers ⟨code, hkey⟩
  dsimp only at hshift
  constructor
  · rw [(errors_modifiers _).1, press_shift, shiftAfter_snoc, h.shift]
    refine if_ctx_congr ?_ (fun _ => ?_) fun _ => rfl
    · rw [hshift, IsShift]
      omega
    · rw [decide_eq_true (by omega)]
  · rw [(errors_modifiers _).2, press_capslock, capslockAfter_snoc, h.capslock]
    exact if_ctx_congr hcaps (fun _ => rfl) fun _ => rfl

theorem Tracks.callback (h : Tracks codes s) (hcode : code < 256) (hin : InTable code) :
    ∃ t, kbdCallback s code = some (t, (byteAfter codes code).toList) ∧
      Tracks (codes ++ [code]) t := by
  unfold kbdCallback byteAfter
  by_cases hskip : code = 0xe0 ∨ code = 0xe1
  · rw [if_pos hskip, if_pos (by omega)]
    refine ⟨_, rfl, ?_, ?_⟩
    · rw [(errors_modifiers _).1, shiftAfter_snoc, if_neg (by rw [IsShift]; omega), h.shift]
    · rw [(errors_modifiers _).2, capslockAfter_snoc, if_neg (by omega), h.capslock]
  · rw [InTable] at hin
    rw [if_neg hskip]
    by_cases hbreak : 0x80 ≤ code
    · rw [if_pos ((and_top_bit hcode).mpr hbreak), if_neg (by omega)]
      dsimp only
      rw [getElem?_table (by omega), ← h.shift, ← h.capslock]
      exact ⟨_, rfl, h.release hbreak (by omega)⟩
    · rw [if_neg (mt (and_top_bit hcode).mp hbreak), if_pos (by omega), getElem?_table (by omega)]
      exact ⟨_, rfl, h.press (by omega) code⟩

theorem kbdCallback_outside (hcode : code < 256) (hout : ¬ InTable code) :
    kbdCallback s code = none := by
  rw [InTable] at hout
  have hnone : ∀ i, 83 ≤ i → kkybrdScancodeStd[i]? = none := fun i hi =>
    List.getElem?_eq_none hi
  unfold kbdCallback
  rw [if_neg (by omega)]
  by_cases hbreak : 0x80 ≤ code
  · rw [if_pos ((and_top_bit hcode).mpr hbreak)]
    dsimp only
    rw [hnone _ (by omega), Option.map_none]
  · rw [if_neg (mt (and_top_bit hcode).mp hbreak), hnone _ (by omega), Option.map_none]

theorem kbdRun_snoc (s : Kbd) (codes : List ℕ) (code : ℕ) :
    kbdRun s (codes ++ [code]) = (kbdRun s codes).bind fun r =>
      (kbdCallback r.1 code).map fun t => (t.1, r.2 ++ t.2) := by
  rw [kbdRun, List.foldlM_append]
  refine congrArg (Option.bind _) (funext fun r => ?_)
  rw [List.foldlM_cons]
  exact bind_pure _

theorem kbdRun_outside (hcodes : ∀ c ∈ codes, c < 256) (hout : ¬ ∀ c ∈ codes, InTable c) :
    kbdRun start codes = none := by
  induction codes using List.reverseRecOn with
  | nil => exact absurd (fun c hc => absurd hc List.not_mem_nil) hout
  | append_singleton codes code ih =>
    rw [List.forall_mem_append, List.forall_mem_singleton] at hcodes hout
    rw [kbdRun_snoc]
    by_cases hin : ∀ c ∈ codes, InTable c
    · cases kbdRun start codes with
      | none => rfl
      | some r =>
        rw [Option.bind_some, kbdCallback_outside hcodes.2 fun hc => hout ⟨hin, hc⟩]
        rfl
    · rw [ih hcodes.1 hin]
      rfl

theorem kbdRun_inside (hcodes : ∀ c ∈ codes, c < 256) (hin : ∀ c ∈ codes, InTable c) :
    ∃ s, kbdRun start codes = some (s, bytesOf codes) ∧ Tracks codes s := by
  induction codes using List.reverseRecOn with
  | nil => exact ⟨start, rfl, rfl, rfl⟩
  | append_singleton codes code ih =>
    rw [List.forall_mem_append, List.forall_mem_singleton] at hcodes hin
    obtain ⟨s, hrun, htracks⟩ := ih hcodes.1 hin.1
    obtain ⟨t, hcall, ht⟩ := htracks.callback hcodes.2 hin.2
    refine ⟨t, ?_, ht⟩
    rw [kbdRun_snoc, hrun, Option.bind_some, hcall, bytesOf_snoc]
    rfl

end Runs

/-- The keyboard writes one byte for each released key, whichever key it is, with shift and caps
lock as they are at that moment. The handler is defined exactly on the codes of its table: the
encoder's acknowledgement of a command, for one, makes it read behind the end. -/
theorem keyboard_bytes {codes : List ℕ} (hcodes : ∀ code ∈ codes, code < 256) :
    (kbdRun start codes).map Prod.snd =
      if ∀ code ∈ codes, InTable code then some (bytesOf codes) else none := by
  split_ifs with hin
  · obtain ⟨s, hrun, -⟩ := kbdRun_inside hcodes hin
    rw [hrun]
    rfl
  · rw [kbdRun_outside hcodes hin]
    rfl

/-- Shift and `a`, with shift released last: the letter, and the low byte of the shift key. -/
theorem keyboard_bytes_shifted :
    (kbdRun start [0x2a, 0x1e, 0x9e, 0xaa]).map Prod.snd = some [0x41, 0x02] := by
  rw [keyboard_bytes (by decide)]
  decide +kernel

end Bingos.Keyboard
