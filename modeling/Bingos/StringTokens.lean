import Bingos.DottedQuads
import Bingos.MaximalRuns

set_option autoImplicit false

/-! `strtok_r` of `libc/string.c` and the shell's `sh_split_line`. A pointer into the string is a place
in its buffer; a read outside of the buffer, or behind the end of the delimiters, has no result. -/
namespace Bingos.Tokens
open CStrings MaximalRuns

/-- The inner loop of `strpbrk` and `strspn`: whether it meets the character before the end. -/
def accepts : Bytes → UInt8 → Option Bool
  | [], _ => none
  | a :: acc, c => if a = 0 then some false else if a = c then some true else accepts acc c

def strpbrkLoop (accept : Bytes) : Bytes → ℕ → Option (Option ℕ)
  | [], _ => none
  | c :: str, i =>
    if c = 0 then some none
    else
      (accepts accept c).bind fun hit =>
        if hit then some (some i) else strpbrkLoop accept str (i + 1)

def strpbrk (buffer : Bytes) (str : ℕ) (accept : Bytes) : Option (Option ℕ) :=
  strpbrkLoop accept (buffer.drop str) str

def strspnLoop (accept : Bytes) : Bytes → ℕ → Option ℕ
  | [], _ => none
  | c :: ptr, size =>
    if c = 0 then some size
    else
      (accepts accept c).bind fun hit =>
        if hit then strspnLoop accept ptr (size + 1) else some size

def strspn (buffer : Bytes) (str : ℕ) (accept : Bytes) : Option ℕ :=
  strspnLoop accept (buffer.drop str) 0

/-- What a call of `strtok_r` returns and leaves; `none` is the null pointer. -/
structure Call where
  token : Option ℕ
  buffer : Bytes
  saveptr : ℕ

def strtokR (buffer : Bytes) (str : Option ℕ) (delim : Bytes) (saveptr : ℕ) : Option Call :=
  let str := str.getD saveptr
  (strspn buffer str delim).bind fun skipped =>
    let token := str + skipped
    buffer[token]?.bind fun c =>
      if c = 0 then some ⟨none, buffer, token⟩
      else
        (strpbrk buffer token delim).bind fun found =>
          match found with
          | none => (DottedQuads.lfind buffer token 0).map fun stop => ⟨some token, buffer, stop⟩
          | some stop => some ⟨some token, buffer.set stop 0, stop + 1⟩

/-- So many calls, the later ones with a null pointer: what they returned, and what they left. -/
def strtokCalls (delim : Bytes) : ℕ → Option ℕ → Bytes → ℕ → Option (List (Option ℕ) × Bytes)
  | 0, _, buffer, _ => some ([], buffer)
  | k + 1, str, buffer, saveptr =>
    (strtokR buffer str delim saveptr).bind fun call =>
      (strtokCalls delim k none call.buffer call.saveptr).map fun later =>
        (call.token :: later.1, later.2)

/-- What `sh_split_line` leaves: the line, the cells from `tokens` on, and `*tlen`. -/
structure Split where
  line : Bytes
  tokens : ℕ → ℕ
  tlen : ℕ

def splitLoop : ℕ → Option ℕ → Bytes → ℕ → (ℕ → ℕ) → ℕ → Option Split
  | 0, _, _, _, _, _ => none
  | fuel + 1, str, line, last, tokens, tlen =>
    (strtokR line str [0x20, 0] last).bind fun call =>
      match call.token with
      | none => some ⟨call.buffer, tokens, tlen⟩
      | some token =>
        splitLoop fuel none call.buffer call.saveptr (Function.update tokens tlen token) (tlen + 1)

/-- `last` is not set before the first call. -/
def shSplitLine (fuel : ℕ) (line : Bytes) (tokens : ℕ → ℕ) (last : ℕ) : Option Split :=
  splitLoop fuel (some 0) line last tokens 0

variable {gap text word : Bytes} {ws : List Span} {x : UInt8} {fuel i : ℕ}

/-! The scans. -/
section Scans
variable {delims behind : Bytes}

theorem accepts_eq (h : 0 ∉ delims) (c : UInt8) :
    accepts (delims ++ 0 :: behind) c = some (decide (c ∈ delims)) := by
  induction delims with
  | nil => simp [accepts]
  | cons a delims ih =>
    have ha : a ≠ 0 := fun h0 => h (h0 ▸ List.mem_cons_self)
    rw [List.cons_append, accepts, if_neg ha]
    by_cases hc : a = c
    · simp [hc]
    · rw [if_neg hc, ih fun h0 => h (List.mem_cons_of_mem a h0)]
      simp [Ne.symm hc]

theorem strspnLoop_eq (h : 0 ∉ delims) {tail : Bytes} (hgap : ∀ c ∈ gap, c ∈ delims)
    (hx : x = 0 ∨ x ∉ delims) (size : ℕ) :
    strspnLoop (delims ++ 0 :: behind) (gap ++ x :: tail) size = some (size + gap.length) := by
  induction gap generalizing size with
  | nil =>
    rw [List.nil_append, strspnLoop]
    rcases hx with rfl | hx
    · rw [if_pos rfl]
      rfl
    · by_cases hx0 : x = 0
      · rw [if_pos hx0]
        rfl
      · rw [if_neg hx0, accepts_eq h, decide_eq_false hx]
        rfl
  | cons c gap ih =>
    have hc : c ∈ delims := hgap c List.mem_cons_self
    have hc0 : c ≠ 0 := fun h0 => h (h0 ▸ hc)
    rw [List.cons_append, strspnLoop, if_neg hc0, accepts_eq h, decide_eq_true hc, Option.bind_some,
      if_pos rfl, ih fun d hd => hgap d (List.mem_cons_of_mem c hd), List.length_cons]
    congr 1
    omega

theorem strpbrkLoop_word (h : 0 ∉ delims) (hword : ∀ c ∈ word, c ∉ delims)
    (hword0 : 0 ∉ word) (tail : Bytes) (i : ℕ) :
    strpbrkLoop (delims ++ 0 :: behind) (word ++ tail) i =
      strpbrkLoop (delims ++ 0 :: behind) tail (i + word.length) := by
  induction word generalizing i with
  | nil => rfl
  | cons c word ih =>
    have hc0 : c ≠ 0 := fun h0 => hword0 (h0 ▸ List.mem_cons_self)
    rw [List.cons_append, strpbrkLoop, if_neg hc0, accepts_eq h,
      decide_eq_false (hword c List.mem_cons_self), Option.bind_some, if_neg Bool.false_ne_true,
      ih (fun d hd => hword d (List.mem_cons_of_mem c hd))
        (fun h0 => hword0 (List.mem_cons_of_mem c h0)), List.length_cons, Nat.add_assoc, Nat.add_comm 1]

end Scans

def terminate (ws : List Span) (buffer : Bytes) : Bytes :=
  ws.foldl (fun buffer s => buffer.set s.stop 0) buffer

/-! One call and many. -/
section Calls
variable {delims behind behindDelims : Bytes} {buffer : Bytes} {p : ℕ}

def Ready (delims behind : Bytes) (ws : List Span) (buffer : Bytes) (p : ℕ) : Prop :=
  ∃ pre l, buffer = pre ++ (l ++ 0 :: behind) ∧ pre.length = p ∧ 0 ∉ l ∧
    Splits (· ∈ delims) p l ws

theorem ready_end (delims behind pre : Bytes) :
    Ready delims behind [] (pre ++ 0 :: behind) pre.length :=
  ⟨pre, [], rfl, rfl, List.not_mem_nil, .done (List.forall_mem_nil _)⟩

theorem strtokR_word (hdelims : 0 ∉ delims) {pre : Bytes} (tail : Bytes)
    (hgap : ∀ c ∈ gap, c ∈ delims) (hne : word ≠ []) (hword : ∀ c ∈ word, c ∉ delims)
    (hword0 : 0 ∉ word) (hbuffer : buffer = pre ++ (gap ++ (word ++ tail))) :
    strtokR buffer none (delims ++ 0 :: behindDelims) pre.length =
      (strpbrkLoop (delims ++ 0 :: behindDelims) tail (pre.length + gap.length + word.length)).bind
        fun found =>
          match found with
          | none => (DottedQuads.lfind buffer (pre.length + gap.length) 0).map fun stop =>
            ⟨some (pre.length + gap.length), buffer, stop⟩
          | some stop => some ⟨some (pre.length + gap.length), buffer.set stop 0, stop + 1⟩ := by
  have hdrop : buffer.drop (pre.length + gap.length) = word ++ tail := by
    rw [hbuffer, ← List.append_assoc, ← List.length_append, List.drop_left]
  have hspan : strspn buffer pre.length (delims ++ 0 :: behindDelims) = some gap.length := by
    obtain ⟨c, word, rfl⟩ := List.exists_cons_of_ne_nil hne
    rw [strspn, hbuffer, List.drop_left, List.cons_append,
      strspnLoop_eq hdelims hgap (Or.inr (hword c List.mem_cons_self)), Nat.zero_add]
  have hfirst : ∃ c, buffer[pre.length + gap.length]? = some c ∧ c ≠ 0 := by
    obtain ⟨c, word, rfl⟩ := List.exists_cons_of_ne_nil hne
    refine ⟨c, ?_, fun h0 => hword0 (h0 ▸ List.mem_cons_self)⟩
    rw [← List.head?_drop, hdrop]
    rfl
  obtain ⟨c, hc, hc0⟩ := hfirst
  rw [strtokR, Option.getD_none, hspan, Option.bind_some]
  dsimp only
  rw [hc, Option.bind_some, if_neg hc0, strpbrk, hdrop, strpbrkLoop_word hdelims hword hword0]

section Outcomes
variable {pre tail : Bytes}

theorem length_before (pre gap word : Bytes) :
    (pre ++ gap ++ word).length = pre.length + gap.length + word.length := by
  rw [List.length_append, List.length_append]

theorem strtokR_done (hdelims : 0 ∉ delims) (hgap : ∀ c ∈ gap, c ∈ delims) :
    strtokR (pre ++ (gap ++ 0 :: behind)) none (delims ++ 0 :: behindDelims) pre.length =
      some ⟨none, pre ++ (gap ++ 0 :: behind), pre.length + gap.length⟩ := by
  rw [strtokR, Option.getD_none, strspn, List.drop_left, strspnLoop_eq hdelims hgap (Or.inl rfl)]
  simp

theorem strtokR_last (hdelims : 0 ∉ delims) (hgap : ∀ c ∈ gap, c ∈ delims) (hne : word ≠ [])
    (hword : ∀ c ∈ word, c ∉ delims) (hword0 : 0 ∉ word)
    (hbuffer : buffer = pre ++ (gap ++ (word ++ 0 :: behind))) :
    strtokR buffer none (delims ++ 0 :: behindDelims) pre.length =
      some ⟨some (pre.length + gap.length), buffer, pre.length + gap.length + word.length⟩ := by
  have hfind : DottedQuads.lfind buffer (pre.length + gap.length) 0 =
      some (pre.length + gap.length + word.length) := by
    rw [DottedQuads.lfind, hbuffer, ← List.append_assoc, ← List.length_append, List.drop_left]
    exact DottedQuads.lfindLoop_eq (List.forall_mem_ne'.mpr hword0) _
  rw [strtokR_word hdelims (0 :: behind) hgap hne hword hword0 hbuffer, strpbrkLoop, if_pos rfl,
    Option.bind_some]
  dsimp only
  rw [hfind]
  rfl

theorem strtokR_next (hdelims : 0 ∉ delims) (hgap : ∀ c ∈ gap, c ∈ delims) (hne : word ≠ [])
    (hword : ∀ c ∈ word, c ∉ delims) (hword0 : 0 ∉ word) (hx : x ∈ delims)
    (hbuffer : buffer = pre ++ (gap ++ (word ++ x :: tail))) :
    strtokR buffer none (delims ++ 0 :: behindDelims) pre.length =
      some ⟨some (pre.length + gap.length), buffer.set (pre.length + gap.length + word.length) 0,
        pre.length + gap.length + word.length + 1⟩ := by
  have hx0 : x ≠ 0 := fun h0 => hdelims (h0 ▸ hx)
  rw [strtokR_word hdelims (x :: tail) hgap hne hword hword0 hbuffer, strpbrkLoop, if_neg hx0,
    accepts_eq hdelims, decide_eq_true hx]
  rfl

theorem set_behind (x : UInt8) (hbuffer : buffer = pre ++ (gap ++ (word ++ x :: tail))) :
    buffer.set (pre.length + gap.length + word.length) 0 = (pre ++ gap ++ word) ++ 0 :: tail := by
  have hsplit : buffer = (pre ++ gap ++ word) ++ x :: tail := by
    rw [hbuffer, List.append_assoc, List.append_assoc]
  rw [hsplit, ← length_before, List.set_append_right _ _ le_rfl, Nat.sub_self, List.set_cons_zero]

end Outcomes

theorem Ready.call (h : Ready delims behind ws buffer p) (hdelims : 0 ∉ delims)
    (behindDelims : Bytes) :
    ∃ saveptr, strtokR buffer none (delims ++ 0 :: behindDelims) p =
        some ⟨ws.head?.map Span.start, terminate (ws.take 1) buffer, saveptr⟩ ∧
      Ready delims behind ws.tail (terminate (ws.take 1) buffer) saveptr := by
  obtain ⟨pre, l, hbuffer, rfl, hl, hsplits⟩ := h
  cases hsplits with
  | done hgap =>
    subst hbuffer
    refine ⟨pre.length + l.length, strtokR_done hdelims hgap, ?_⟩
    have hready := ready_end delims behind (pre ++ l)
    rwa [List.append_assoc, List.length_append] at hready
  | @last _ gap word hgap hne hword =>
    have hword0 : 0 ∉ word := fun h0 => hl (List.mem_append_right gap h0)
    rw [List.append_assoc] at hbuffer
    -- the end of the string is there already
    have hset := set_behind 0 hbuffer
    have hsame : buffer.set (pre.length + gap.length + word.length) 0 = buffer := by
      rw [hset, hbuffer, List.append_assoc, List.append_assoc]
    refine ⟨pre.length + gap.length + word.length, ?_, ?_⟩
    · rw [strtokR_last hdelims hgap hne hword hword0 hbuffer]
      exact congrArg (fun b => some (Call.mk _ b _)) hsame.symm
    · change Ready delims behind [] (buffer.set (pre.length + gap.length + word.length) 0) _
      rw [hset, ← length_before]
      exact ready_end _ _ _
  | @next _ gap word tail x ws hgap hne hword hx htail =>
    have hword0 : 0 ∉ word := fun h0 =>
      hl (List.mem_append_right gap (List.mem_append_left (x :: tail) h0))
    have htail0 : 0 ∉ tail := fun h0 =>
      hl (List.mem_append_right gap (List.mem_append_right word (List.mem_cons_of_mem x h0)))
    rw [List.append_assoc, List.append_assoc] at hbuffer
    refine ⟨_, strtokR_next hdelims hgap hne hword hword0 hx hbuffer,
      pre ++ gap ++ word ++ [0], tail, ?_, ?_, htail0, htail⟩
    · rw [List.append_assoc _ [0]]
      exact set_behind x hbuffer
    · rw [List.length_append, length_before, List.length_singleton]

theorem Ready.calls (h : Ready delims behind ws buffer p) (hdelims : 0 ∉ delims)
    (behindDelims : Bytes) (k : ℕ) :
    strtokCalls (delims ++ 0 :: behindDelims) k none buffer p =
      some ((List.range k).map fun j => ws[j]?.map Span.start, terminate (ws.take k) buffer) := by
  induction k generalizing ws buffer p with
  | zero => rfl
  | succ k ih =>
    obtain ⟨saveptr, hcall, hready⟩ := h.call hdelims behindDelims
    rw [strtokCalls, hcall, Option.bind_some, ih hready, Option.map_some, List.range_succ_eq_map,
      List.map_cons, List.map_map]
    cases ws with
    | nil => simp [terminate, Function.comp_def]
    | cons s ws => rfl

def stored (tokens : ℕ → ℕ) (tlen : ℕ) (ws : List Span) (i : ℕ) : ℕ :=
  if i < tlen then tokens i else (ws[i - tlen]?.map Span.start).getD (tokens i)

theorem stored_nil (tokens : ℕ → ℕ) (tlen : ℕ) : stored tokens tlen [] = tokens := by
  funext i
  rw [stored]
  split <;> rfl

theorem stored_cons (tokens : ℕ → ℕ) (tlen : ℕ) (s : Span) (ws : List Span) :
    stored (Function.update tokens tlen s.start) (tlen + 1) ws = stored tokens tlen (s :: ws) := by
  funext i
  rw [stored, stored]
  rcases lt_trichotomy i tlen with hlt | rfl | hgt
  · rw [if_pos (by omega), if_pos hlt, Function.update_of_ne hlt.ne]
  · rw [if_pos (Nat.lt_succ_self i), if_neg (lt_irrefl i), Function.update_self, Nat.sub_self]
    rfl
  · have hsucc : i - tlen = i - (tlen + 1) + 1 := by omega
    rw [if_neg (by omega), if_neg (by omega), Function.update_of_ne hgt.ne', hsucc,
      List.getElem?_cons_succ]

theorem Ready.splitLoop {behind line : Bytes} (h : Ready [0x20] behind ws line p)
    (hfuel : ws.length < fuel) (tokens : ℕ → ℕ) (tlen : ℕ) :
    splitLoop fuel none line p tokens tlen =
      some ⟨terminate ws line, stored tokens tlen ws, tlen + ws.length⟩ := by
  induction fuel generalizing ws line p tokens tlen with
  | zero => exact absurd hfuel (Nat.not_lt_zero _)
  | succ fuel ih =>
    obtain ⟨saveptr, hcall, hready⟩ := h.call (by decide) []
    rw [List.singleton_append] at hcall
    rw [Tokens.splitLoop, hcall, Option.bind_some]
    cases ws with
    | nil =>
      rw [stored_nil]
      rfl
    | cons s ws =>
      have hrest := ih hready (Nat.lt_of_succ_lt_succ hfuel) (Function.update tokens tlen s.start)
        (tlen + 1)
      rw [stored_cons, Nat.add_assoc, Nat.add_comm 1] at hrest
      exact hrest

end Calls

/-! The strings that are left. -/
section Strings
variable {behind buffer : Bytes} {delims : Bytes}

theorem length_terminate (ws : List Span) (buffer : Bytes) :
    (terminate ws buffer).length = buffer.length := by
  induction ws generalizing buffer with
  | nil => rfl
  | cons s ws ih =>
    change (terminate ws (buffer.set s.stop 0)).length = _
    rw [ih, List.length_set]

theorem terminate_of_ne (h : ∀ s ∈ ws, s.stop ≠ i) : (terminate ws buffer)[i]? = buffer[i]? := by
  induction ws generalizing buffer with
  | nil => rfl
  | cons s ws ih =>
    change (terminate ws (buffer.set s.stop 0))[i]? = _
    rw [ih fun t ht => h t (List.mem_cons_of_mem s ht),
      List.getElem?_set_ne (h s List.mem_cons_self)]

theorem terminate_zero (h : buffer[i]? = some 0) : (terminate ws buffer)[i]? = some 0 := by
  induction ws generalizing buffer with
  | nil => exact h
  | cons s ws ih =>
    change (terminate ws (buffer.set s.stop 0))[i]? = _
    apply ih
    by_cases heq : s.stop = i
    · rw [heq, List.getElem?_set_self (List.getElem?_eq_some_iff.mp h).1]
    · rw [List.getElem?_set_ne heq, h]

theorem terminate_stop {s : Span} (hs : s ∈ ws) (hlt : s.stop < buffer.length) :
    (terminate ws buffer)[s.stop]? = some 0 := by
  induction ws generalizing buffer with
  | nil => cases hs
  | cons t ws ih =>
    change (terminate ws (buffer.set t.stop 0))[s.stop]? = _
    rcases List.mem_cons.mp hs with rfl | hs
    · exact terminate_zero (List.getElem?_set_self hlt)
    · exact ih hs (by rwa [List.length_set])

structure Cut (text behind : Bytes) (ws : List Span) (buffer : Bytes) : Prop where
  length_eq : buffer.length = (text ++ 0 :: behind).length
  strings : ∀ s ∈ ws, cstr buffer s.start = s.part text
  unchanged : ∀ i, (∀ s ∈ ws, s.stop ≠ i) → buffer[i]? = (text ++ 0 :: behind)[i]?

theorem cut_of_runs (h : Runs (· ∈ delims) text ws) (htext : 0 ∉ text) (behind : Bytes)
    {vs : List Span} (hvs : vs ⊆ ws) : Cut text behind vs (terminate vs (text ++ 0 :: behind)) := by
  refine ⟨length_terminate _ _, fun s hs => ?_, fun i hi => terminate_of_ne hi⟩
  have hfree := ((h.mem_iff s).mp (hvs hs)).prop
  have hstart := hfree.nonempty
  have hstop := hfree.inside
  have hlen : (s.part text).length = s.stop - s.start := by
    rw [Span.part, List.length_take, List.length_drop]
    omega
  have hinside : ∀ i, s.start ≤ i → i < s.stop →
      (terminate vs (text ++ 0 :: behind))[i]? = (s.part text)[i - s.start]? := by
    intro i hlow hhigh
    rw [terminate_of_ne, List.getElem?_append_left (by omega), Span.part,
      List.getElem?_take_of_lt (by omega), List.getElem?_drop, Nat.add_sub_cancel' hlow]
    intro t ht heq
    have hfree' := ((h.mem_iff t).mp (hvs ht)).prop
    have hstart' := hfree'.nonempty
    by_cases hne : s = t
    · subst hne
      omega
    · rcases h.apart (hvs hs) (hvs ht) hne with hlt | hlt <;> omega
  have hdrop : (terminate vs (text ++ 0 :: behind)).drop s.start =
      s.part text ++ 0 :: (terminate vs (text ++ 0 :: behind)).drop (s.stop + 1) := by
    apply List.ext_getElem?
    intro j
    rw [List.getElem?_drop]
    rcases lt_trichotomy j (s.stop - s.start) with hlt | heq | hgt
    · rw [List.getElem?_append_left (by omega), hinside _ (Nat.le_add_right _ _) (by omega),
        Nat.add_sub_cancel_left]
    · have hplace : s.start + j = s.stop := by omega
      rw [hplace, terminate_stop hs (by rw [List.length_append, List.length_cons]; omega),
        List.getElem?_append_right (by omega), hlen, heq, Nat.sub_self]
      rfl
    · obtain ⟨k, hk⟩ : ∃ k, j = s.stop - s.start + (k + 1) := ⟨j - (s.stop - s.start) - 1, by omega⟩
      have hplace : s.start + j = s.stop + 1 + k := by omega
      rw [hplace, List.getElem?_append_right (by omega), hlen, hk, Nat.add_sub_cancel_left,
        List.getElem?_cons_succ, List.getElem?_drop]
  refine cstr_of_drop (fun h0 => htext ?_) hdrop
  exact List.mem_of_mem_drop (List.mem_of_mem_take h0)

end Strings

theorem ready_start {delims : Bytes} (htext : 0 ∉ text) (behind : Bytes)
    (h : Splits (· ∈ delims) 0 text ws) : Ready delims behind ws (text ++ 0 :: behind) 0 :=
  ⟨[], text, rfl, rfl, htext, h⟩

theorem strtokCalls_start (delim : Bytes) (k str : ℕ) (buffer : Bytes) (saveptr : ℕ) :
    strtokCalls delim k (some str) buffer saveptr = strtokCalls delim k none buffer str := by
  cases k with
  | zero => rfl
  | succ k => rfl

theorem splitLoop_start (fuel str : ℕ) (line : Bytes) (last : ℕ) (tokens : ℕ → ℕ) (tlen : ℕ) :
    splitLoop fuel (some str) line last tokens tlen = splitLoop fuel none line str tokens tlen := by
  cases fuel with
  | zero => rfl
  | succ fuel => rfl

theorem shSplitLine_eq (htext : 0 ∉ text) (behind : Bytes)
    (h : Splits (· ∈ [(0x20 : UInt8)]) 0 text ws) (hfuel : ws.length < fuel)
    (tokens : ℕ → ℕ) (last : ℕ) : shSplitLine fuel (text ++ 0 :: behind) tokens last =
      some ⟨terminate ws (text ++ 0 :: behind), fun i => (ws[i]?.map Span.start).getD (tokens i),
        ws.length⟩ := by
  rw [shSplitLine, splitLoop_start, (ready_start htext behind h).splitLoop hfuel, Nat.zero_add]
  rfl

/-- The calls of `strtok_r` return the words of the text in order and then null pointers, and
`sh_split_line` stores the words between spaces. -/
theorem strtok_words (text behind : Bytes) (htext : 0 ∉ text) (last : ℕ) :
    (∀ delims behindDelims : Bytes, 0 ∉ delims → ∃ ws, Runs (· ∈ delims) text ws ∧ ∀ k, ∃ buffer,
      strtokCalls (delims ++ 0 :: behindDelims) k (some 0) (text ++ 0 :: behind) last =
        some ((List.range k).map fun j => ws[j]?.map Span.start, buffer) ∧
      Cut text behind (ws.take k) buffer) ∧
    ∃ ws, Runs (· ∈ [0x20]) text ws ∧ ∀ tokens fuel, ws.length < fuel → ∃ line,
      shSplitLine fuel (text ++ 0 :: behind) tokens last =
        some ⟨line, fun i => (ws[i]?.map Span.start).getD (tokens i), ws.length⟩ ∧
      Cut text behind ws line := by
  constructor
  · intro delims behindDelims hdelims
    obtain ⟨ws, hsplits⟩ := exists_splits (· ∈ delims) 0 text
    refine ⟨ws, hsplits.runs, fun k => ⟨terminate (ws.take k) (text ++ 0 :: behind), ?_, ?_⟩⟩
    · rw [strtokCalls_start, (ready_start htext behind hsplits).calls hdelims behindDelims]
    · exact cut_of_runs hsplits.runs htext behind (List.take_subset k ws)
  · obtain ⟨ws, hsplits⟩ := exists_splits (· ∈ [(0x20 : UInt8)]) 0 text
    refine ⟨ws, hsplits.runs, fun tokens fuel hfuel => ⟨_,
      shSplitLine_eq htext behind hsplits hfuel tokens last, ?_⟩⟩
    exact cut_of_runs hsplits.runs htext behind (List.Subset.refl ws)

def lsLine : Bytes := [0x6c, 0x73, 0x20, 0x20, 0x2d, 0x6c]

theorem lsLine_words : (∃ ws, Runs (· ∈ [0x20]) lsLine ws ∧ ∃ buffer,
      strtokCalls [0x20, 0] 3 (some 0) (lsLine ++ [0]) 0 =
        some ((List.range 3).map fun j => ws[j]?.map Span.start, buffer) ∧
      Cut lsLine [] (ws.take 3) buffer) ∧
    ∃ ws, Runs (· ∈ [0x20]) lsLine ws ∧ ∃ line,
      shSplitLine (ws.length + 1) (lsLine ++ [0]) (fun _ => 0) 0 =
        some ⟨line, fun i => (ws[i]?.map Span.start).getD 0, ws.length⟩ ∧ Cut lsLine [] ws line := by
  obtain ⟨hcalls, ws, hws, hline⟩ := strtok_words lsLine [] (by decide) 0
  obtain ⟨vs, hvs, hcalls⟩ := hcalls [0x20] [] (by decide)
  exact ⟨⟨vs, hvs, hcalls 3⟩, ws, hws, hline (fun _ => 0) _ (Nat.lt_succ_self _)⟩

/-- `sh_split_line` stays inside an array of so many cells exactly if there are no more words. The
array of the shell has 64 bytes, and so 16 cells. -/
theorem shSplitLine_cells (text behind : Bytes) (htext : 0 ∉ text) (last : ℕ) :
    ∃ ws, Runs (· ∈ [0x20]) text ws ∧ ∀ cells, (∀ tokens, ∃ split,
      shSplitLine (ws.length + 1) (text ++ 0 :: behind) tokens last = some split ∧
        ∀ i, cells ≤ i → split.tokens i = tokens i) ↔ ws.length ≤ cells := by
  obtain ⟨ws, hsplits⟩ := exists_splits (· ∈ [(0x20 : UInt8)]) 0 text
  have hline := shSplitLine_eq htext behind hsplits (Nat.lt_succ_self _)
  refine ⟨ws, hsplits.runs, fun cells => ⟨fun hkept => ?_, fun hle tokens => ?_⟩⟩
  · by_contra hlt
    -- a cell that does not hold the place of its word before
    obtain ⟨split, hsplit, hcells⟩ := hkept fun i => (ws[i]?.map Span.start).getD 0 + 1
    have hword : ws[cells]? = some ws[cells] := List.getElem?_eq_getElem (not_le.mp hlt)
    rw [hline, Option.some.injEq] at hsplit
    have hcell := hcells cells le_rfl
    rw [← hsplit] at hcell
    simp only [hword, Option.map_some, Option.getD_some] at hcell
    omega
  · refine ⟨_, hline tokens last, fun i hi => ?_⟩
    have hnone : ws[i]? = none := List.getElem?_eq_none (hle.trans hi)
    simp only [hnone, Option.map_none, Option.getD_none]

end Bingos.Tokens
