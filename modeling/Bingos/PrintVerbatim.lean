import Bingos.PrintModel

set_option autoImplicit false

/-! Which messages come through the kernel's formatter unchanged. A directive that
takes no argument writes fewer bytes than it has, unless it is inert. -/
namespace Bingos.Print
open CStrings MachineWords

def flagChars : Bytes := [ch '-', ch '+', ch ' ', ch '#', ch '0']

def letters : Bytes := [ch 'c', ch 's', ch 'o', ch 'p', ch 'x', ch 'X', ch 'd', ch 'i', ch 'u', ch 'n']

def isDirective (c : UInt8) : Bool :=
  c ∈ flagChars ∨ isDigit c ∨ c = ch '*' ∨ c = ch '.' ∨ c = ch 'h' ∨ c = ch 'l' ∨ c = ch 'L' ∨
    c ∈ letters ∨ c = ch '%'

def Inert : Bytes → Prop
  | [] => True
  | c :: msg => (c = ch '%' → isDirective (msg.headD 0) = false) ∧ Inert msg

variable {fmt : Bytes} {c : UInt8}

section Stages
variable {env : Env} {s : Spec}

theorem parseFlags_of_notMem (hc : c ∉ flagChars) (fmt : Bytes) (flags : Flags) :
    parseFlags (c :: fmt) flags = (flags, c :: fmt) := by
  simp only [flagChars, List.mem_cons, List.not_mem_nil, or_false, not_or] at hc
  simp only [parseFlags, hc.1, hc.2.1, hc.2.2.1, hc.2.2.2.1, hc.2.2.2.2, if_false]

theorem parseFlags_cases (fmt : Bytes) (flags : Flags) :
    (parseFlags fmt flags).2.length < fmt.length ∨
      parseFlags fmt flags = (flags, fmt) ∧ fmt.headD 0 ∉ flagChars := by
  cases fmt with
  | nil => exact Or.inr ⟨rfl, by decide⟩
  | cons c fmt =>
    by_cases hc : c ∈ flagChars
    · left
      rw [parseFlags]
      simp only [flagChars, List.mem_cons, List.not_mem_nil, or_false] at hc
      split_ifs with h₁ h₂ h₃ h₄ h₅
      iterate 5 exact Nat.lt_succ_of_le (parseFlags_length _ _)
      exact absurd hc (not_or.mpr ⟨h₁, not_or.mpr ⟨h₂, not_or.mpr ⟨h₃, not_or.mpr ⟨h₄, h₅⟩⟩⟩⟩)
    · exact Or.inr ⟨parseFlags_of_notMem hc fmt flags, hc⟩

theorem headD_ne_zero (hc : c ≠ 0) (h : fmt.headD 0 = c) :
    fmt = c :: fmt.tail := by
  cases fmt with
  | nil => exact absurd h.symm hc
  | cons d fmt =>
    rw [List.headD_cons] at h
    rw [h, List.tail_cons]

theorem length_tail_lt (hc : c ≠ 0) (h : fmt.headD 0 = c) :
    fmt.tail.length < fmt.length := by
  rw [headD_ne_zero hc h, List.tail_cons, List.length_cons]
  exact Nat.lt_succ_self _

theorem skipAtoi_lt (i : ℤ) (h : isDigit (fmt.headD 0) = true) :
    (skipAtoi fmt i).2.length < fmt.length := by
  cases fmt with
  | nil => exact absurd h (by decide)
  | cons c fmt =>
    rw [List.headD_cons] at h
    rw [skipAtoi, if_pos h]
    exact Nat.lt_succ_of_le (skipAtoi_length _ _)

/-- A stage takes an argument, or it shortens the format, or it does nothing and
the next byte is not one of its own. -/
def Passes (own : UInt8 → Bool) (s s' : Spec) : Prop :=
  s.run.reads < s'.run.reads ∨
    s'.run = s.run ∧ (s'.fmt.length < s.fmt.length ∨ s'.fmt = s.fmt ∧ own (s.fmt.headD 0) = false)

theorem getWidth_passes (s : Spec) :
    Passes (fun c => isDigit c || c = ch '*') s (getWidth env s) := by
  unfold getWidth
  dsimp only
  split_ifs with hdigit hstar hneg
  · exact Or.inr ⟨rfl, Or.inl (skipAtoi_lt 0 hdigit)⟩
  · exact Or.inl (Nat.lt_succ_self _)
  · exact Or.inl (Nat.lt_succ_self _)
  · exact Or.inr ⟨rfl, Or.inr ⟨rfl, Bool.or_eq_false_iff.mpr
      ⟨Bool.eq_false_of_not_eq_true hdigit, decide_eq_false hstar⟩⟩⟩

theorem getPrecision_passes (s : Spec) : Passes (fun c => c = ch '.') s (getPrecision env s) := by
  unfold getPrecision
  dsimp only
  split_ifs with hdot hdigit hstar
  · have htail := length_tail_lt (by decide) hdot
    exact Or.inr ⟨rfl, Or.inl ((skipAtoi_length _ _).trans_lt htail)⟩
  · exact Or.inl (Nat.lt_succ_self _)
  · exact Or.inr ⟨rfl, Or.inl (length_tail_lt (by decide) hdot)⟩
  · exact Or.inr ⟨rfl, Or.inr ⟨rfl, decide_eq_false hdot⟩⟩

theorem getQualifier_passes (s : Spec) :
    Passes (fun c => c = ch 'h' ∨ c = ch 'l' ∨ c = ch 'L') s (getQualifier s) := by
  unfold getQualifier
  split_ifs with hq
  · have hne : s.fmt.headD 0 ≠ 0 := by
      rcases hq with h | h | h
      all_goals
        rw [h]
        decide
    exact Or.inr ⟨rfl, Or.inl (length_tail_lt hne rfl)⟩
  · exact Or.inr ⟨rfl, Or.inr ⟨rfl, decide_eq_false hq⟩⟩

theorem Passes.trans {own own' : UInt8 → Bool} {s s' s'' : Spec} (h : Passes own s s')
    (h' : Passes own' s' s'') : Passes (fun c => own c || own' c) s s'' := by
  rcases h with hread | ⟨hrun, hfmt⟩
  · left
    rcases h' with hread' | ⟨hrun', -⟩
    · exact hread.trans hread'
    · rwa [hrun']
  · rcases h' with hread' | ⟨hrun', hfmt'⟩
    · left
      rwa [← hrun]
    · right
      refine ⟨hrun'.trans hrun, ?_⟩
      rcases hfmt with hlt | ⟨heq, hown⟩
      · left
        rcases hfmt' with hlt' | ⟨heq', -⟩
        · exact hlt'.trans hlt
        · rwa [heq']
      · rw [heq] at hfmt'
        rcases hfmt' with hlt' | ⟨heq', hown'⟩
        · exact Or.inl hlt'
        · exact Or.inr ⟨heq', Bool.or_eq_false_iff.mpr ⟨hown, hown'⟩⟩

theorem convertLetter_cases (env : Env) (s : Spec) (c : UInt8) :
    (c ∈ letters ∧ ∃ r, convertLetter env s c = some r ∧ r.reads = s.run.reads + 1) ∨
      convertLetter env s c = none ∧ c ∉ letters := by
  unfold convertLetter
  by_cases h₁ : c = ch 'c'
  · exact Or.inl ⟨by rw [h₁]; decide, _, if_pos h₁, rfl⟩
  by_cases h₂ : c = ch 's'
  · exact Or.inl ⟨by rw [h₂]; decide, _, (if_neg h₁).trans (if_pos h₂), rfl⟩
  rw [if_neg h₁, if_neg h₂]
  by_cases h₃ : c = ch 'o'
  · exact Or.inl ⟨by rw [h₃]; decide, _, if_pos h₃, rfl⟩
  by_cases h₄ : c = ch 'p'
  · rw [if_neg h₃, if_pos h₄]
    refine Or.inl ⟨by rw [h₄]; decide, ?_⟩
    by_cases hwidth : s.fieldWidth = -1
    · exact ⟨_, if_pos hwidth, rfl⟩
    · exact ⟨_, if_neg hwidth, rfl⟩
  rw [if_neg h₃, if_neg h₄]
  by_cases h₅ : c = ch 'x'
  · exact Or.inl ⟨by rw [h₅]; decide, _, if_pos h₅, rfl⟩
  by_cases h₆ : c = ch 'X'
  · exact Or.inl ⟨by rw [h₆]; decide, _, (if_neg h₅).trans (if_pos h₆), rfl⟩
  rw [if_neg h₅, if_neg h₆]
  by_cases h₇ : c = ch 'd' ∨ c = ch 'i'
  · refine Or.inl ⟨?_, _, if_pos h₇, rfl⟩
    rcases h₇ with rfl | rfl
    · decide
    · decide
  by_cases h₈ : c = ch 'u'
  · exact Or.inl ⟨by rw [h₈]; decide, _, (if_neg h₇).trans (if_pos h₈), rfl⟩
  rw [if_neg h₇, if_neg h₈]
  by_cases h₉ : c = ch 'n'
  · exact Or.inl ⟨by rw [h₉]; decide, _, if_pos h₉, rfl⟩
  refine Or.inr ⟨if_neg h₉, ?_⟩
  simp only [letters, List.mem_cons, List.not_mem_nil, or_false, not_or]
  exact ⟨h₁, h₂, h₃, h₄, h₅, h₆, (not_or.mp h₇).1, (not_or.mp h₇).2, h₈, h₉⟩

def isModifier (c : UInt8) : Bool :=
  (isDigit c || c = ch '*') || (c = ch '.' || (c = ch 'h' ∨ c = ch 'l' ∨ c = ch 'L'))

/-- Before the conversion an argument is taken, or the format gets shorter, or the
next byte belongs to the conversion. -/
theorem readSpec_cases (env : Env) (fmt : Bytes) (r : Run) :
    r.reads < (readSpec env fmt r).run.reads ∨
      (readSpec env fmt r).run = r ∧ ((readSpec env fmt r).fmt.length < fmt.length ∨
        (readSpec env fmt r).fmt = fmt ∧ fmt.headD 0 ∉ flagChars ∧
          isModifier (fmt.headD 0) = false) := by
  have hpass : Passes isModifier ⟨(parseFlags fmt {}).1, -1, -1, (parseFlags fmt {}).2, r⟩
      (readSpec env fmt r) :=
    (getWidth_passes _).trans ((getPrecision_passes _).trans (getQualifier_passes _))
  rcases hpass with hread | ⟨hrun, hfmt⟩
  · exact Or.inl hread
  refine Or.inr ⟨hrun, ?_⟩
  rcases parseFlags_cases fmt {} with hlt | ⟨hsame, hflag⟩
  · left
    rcases hfmt with hlt' | ⟨heq, -⟩
    · exact hlt'.trans hlt
    · rwa [heq]
  · rw [hsame] at hfmt
    exact hfmt.imp_right fun h => ⟨h.1, hflag, h.2⟩

theorem isDirective_cases (h : isDirective c = true) :
    c ∈ flagChars ∨ isModifier c = true ∨ c ∈ letters ∨ c = ch '%' := by
  rcases of_decide_eq_true h with hflag | hdigit | rfl | rfl | rfl | rfl | rfl | hrest
  · exact Or.inl hflag
  · refine Or.inr (Or.inl ?_)
    rw [isModifier, hdigit]
    rfl
  iterate 5 exact Or.inr (Or.inl (by decide))
  exact Or.inr (Or.inr hrest)

/-- A conversion takes an argument, or it writes at most one byte more than it
skips, and not that with another `%`. -/
theorem conversion_cases (env : Env) (s : Spec) :
    s.run.reads < (conversion env s).2.reads ∨
      (conversion env s).2.reads = s.run.reads ∧
        (conversion env s).2.out.length + (conversion env s).1.length ≤
          s.run.out.length + 1 + s.fmt.length ∧
        (s.fmt.headD 0 ∈ letters ∨ s.fmt.headD 0 = ch '%' →
          (conversion env s).2.out.length + (conversion env s).1.length <
            s.run.out.length + 1 + s.fmt.length) := by
  unfold conversion
  cases hs : s.fmt with
  | nil =>
    right
    refine ⟨rfl, ?_, fun h => absurd h (by decide)⟩
    simp only [Run.put, List.length_append, List.length_singleton, List.length_nil]
    omega
  | cons c rest =>
    simp only [List.headD_cons]
    rcases convertLetter_cases env s c with ⟨-, r', hsome, hread⟩ | ⟨hnone, hletter⟩
    · left
      rw [hsome, Option.getD_some, hread]
      exact Nat.lt_succ_self _
    · right
      rw [hnone, Option.getD_none]
      refine ⟨rfl, ?_⟩
      by_cases hpercent : c = ch '%'
      · rw [if_pos hpercent]
        simp only [Run.put, List.length_append, List.length_cons, List.length_nil]
        exact ⟨by omega, fun _ => by omega⟩
      · rw [if_neg hpercent]
        simp only [Run.put, List.length_append, List.length_cons, List.length_nil]
        exact ⟨by omega, fun h => absurd h (not_or.mpr ⟨hletter, hpercent⟩)⟩

/-- A directive takes an argument, or it writes at most as many bytes as it has,
and fewer if the byte behind the `%` means something. -/
theorem directive_cases (env : Env) (fmt : Bytes) (r : Run) :
    r.reads < (directive env fmt r).2.reads ∨
      (directive env fmt r).2.reads = r.reads ∧
        (directive env fmt r).2.out.length + (directive env fmt r).1.length ≤
          r.out.length + 1 + fmt.length ∧
        (isDirective (fmt.headD 0) = true →
          (directive env fmt r).2.out.length + (directive env fmt r).1.length <
            r.out.length + 1 + fmt.length) := by
  have hconv := conversion_cases env (readSpec env fmt r)
  have hlen : (readSpec env fmt r).fmt.length ≤ fmt.length := readSpec_length fmt r
  unfold directive
  rcases readSpec_cases env fmt r with hread | ⟨hrun, hfmt⟩
  · left
    rcases hconv with hread' | ⟨hsame, -⟩
    · exact hread.trans hread'
    · rwa [hsame]
  · rw [hrun] at hconv
    rcases hconv with hread' | ⟨hsame, hle, hlt⟩
    · exact Or.inl hread'
    · refine Or.inr ⟨hsame, by omega, fun hdir => ?_⟩
      rcases hfmt with hshort | ⟨heq, hflag, hmod⟩
      · omega
      rw [heq] at hlt
      rcases isDirective_cases hdir with h | h | h
      · exact absurd h hflag
      · exact absurd h (Bool.eq_false_iff.mp hmod)
      · exact hlt h

theorem directive_inert (h : isDirective c = false) (fmt : Bytes) (r : Run) :
    directive env (c :: fmt) r = (fmt, r.put [ch '%', c]) := by
  have hnot := of_decide_eq_false h
  simp only [not_or] at hnot
  obtain ⟨hflag, hdigit, hstar, hdot, hh, hl, hL, hletter, hpercent⟩ := hnot
  have hspec : readSpec env (c :: fmt) r = ⟨{}, -1, -1, c :: fmt, r⟩ := by
    unfold readSpec getWidth getPrecision getQualifier
    simp only [parseFlags_of_notMem hflag, List.headD_cons, hdigit, hstar, hdot, hh, hl, hL,
      Bool.false_eq_true, if_false, or_self]
  have hnone : convertLetter env ⟨{}, -1, -1, c :: fmt, r⟩ c = none := by
    rcases convertLetter_cases env ⟨{}, -1, -1, c :: fmt, r⟩ c with ⟨hmem, -⟩ | ⟨hnone, -⟩
    · exact absurd hmem hletter
    · exact hnone
  rw [directive, hspec, conversion]
  simp only [hnone, Option.getD_none, if_neg hpercent]

end Stages

section Loop
variable {env : Env}

theorem put_put (r : Run) (bs bs' : Bytes) : (r.put bs).put bs' = r.put (bs ++ bs') := by
  simp only [Run.put, List.append_assoc]

theorem loop_inert {msg : Bytes} (h : Inert msg) (r : Run) :
    vsprintfLoop env msg r = r.put msg := by
  induction msg, r using vsprintfLoop.induct env with
  | case1 r =>
    rw [vsprintfLoop, Run.put, List.append_nil]
  | case2 r c msg hc ih =>
    rw [vsprintfLoop, if_pos hc, ih h.2, put_put, List.singleton_append]
  | case3 r c msg hc ih =>
    have hpercent : c = ch '%' := Decidable.not_not.mp hc
    have hnext := h.1 hpercent
    rw [vsprintfLoop, if_neg hc]
    cases msg with
    | nil =>
      have hlast : directive env [] r = ([], r.put [ch '%']) := rfl
      rw [hlast, vsprintfLoop, hpercent]
    | cons d msg =>
      rw [List.headD_cons] at hnext
      rw [directive_inert hnext] at ih ⊢
      rw [ih h.2.2, put_put, hpercent]
      rfl

variable (env) in
/-- The loop takes an argument, or it writes at most as many bytes as the format
has, and as many only if the format is inert. -/
theorem loop_cases (fmt : Bytes) (r : Run) :
    r.reads < (vsprintfLoop env fmt r).reads ∨
      (vsprintfLoop env fmt r).reads = r.reads ∧
        (vsprintfLoop env fmt r).out.length ≤ r.out.length + fmt.length ∧
        ((vsprintfLoop env fmt r).out.length = r.out.length + fmt.length → Inert fmt) := by
  induction fmt, r using vsprintfLoop.induct env with
  | case1 r =>
    rw [vsprintfLoop]
    exact Or.inr ⟨rfl, le_rfl, fun _ => trivial⟩
  | case2 r c fmt hc ih =>
    rw [vsprintfLoop, if_pos hc, List.length_cons]
    have hout : (r.put [c]).out.length = r.out.length + 1 := by
      rw [Run.put, List.length_append, List.length_singleton]
    rw [hout] at ih
    rcases ih with hread | ⟨hsame, hle, heq⟩
    · exact Or.inl hread
    · refine Or.inr ⟨hsame, by omega, fun hlen => ⟨fun hpercent => absurd hpercent hc, ?_⟩⟩
      exact heq (by omega)
  | case3 r c fmt hc ih =>
    rw [vsprintfLoop, if_neg hc, List.length_cons]
    rcases directive_cases env fmt r with hread | ⟨hsame, hle, hlt⟩
    · left
      rcases ih with hread' | ⟨hsame', -⟩
      · exact hread.trans hread'
      · rwa [hsame']
    · rw [hsame] at ih
      rcases ih with hread | ⟨hsame', hle', heq⟩
      · exact Or.inl hread
      · refine Or.inr ⟨hsame', by omega, fun hlen => ?_⟩
        have hnext : isDirective (fmt.headD 0) = false := by
          by_contra hdir
          have hshort := hlt (Bool.eq_true_of_not_eq_false hdir)
          omega
        refine ⟨fun _ => hnext, ?_⟩
        cases fmt with
        | nil => trivial
        | cons d fmt =>
          rw [List.headD_cons] at hnext
          rw [directive_inert hnext] at heq hlen
          have hrest := heq (by
            simp only [Run.put, List.length_append, List.length_cons, List.length_nil] at hlen ⊢
            omega)
          refine ⟨fun hpercent => ?_, hrest⟩
          rw [hpercent] at hnext
          exact absurd hnext (by decide)

end Loop

/-- The message and a newline are shown, no argument is taken, and the bytes fit
the buffer. -/
structure Verbatim (d : Display) (msg : Bytes) : Prop where
  shown : d.shown = msg ++ [0x0a]
  reads : d.reads = 0
  written : d.written ≤ 1024

theorem sysPrintln_iff (kernel : Env) {msg : Bytes} (h : 0 ∉ msg) :
    Verbatim (sysPrintln kernel msg) msg ↔ Inert msg ∧ msg.length < 1024 := by
  constructor
  · rintro ⟨hshown, hreads, hwritten⟩
    simp only [sysPrintln, printk, vsprintf] at hshown hreads hwritten
    have hcstr := List.append_cancel_right hshown
    rcases loop_cases kernel msg ⟨[], 0, []⟩ with hread | ⟨-, hle, heq⟩
    · simp only at hread
      omega
    · have hlen : msg.length ≤ (vsprintfLoop kernel msg ⟨[], 0, []⟩).out.length :=
        calc msg.length
            = (cstr (vsprintfLoop kernel msg ⟨[], 0, []⟩).out 0).length := by rw [hcstr]
          _ ≤ _ := (List.takeWhile_sublist _).length_le
      simp only [List.length_nil, Nat.zero_add] at hle heq
      exact ⟨heq (le_antisymm hle hlen), by omega⟩
  · rintro ⟨hinert, hlen⟩
    have hrun : vsprintf kernel msg = Run.put ⟨[], 0, []⟩ msg := loop_inert hinert _
    constructor
    · rw [sysPrintln, printk, hrun]
      simp only [Run.put, List.nil_append, cstr_of_notMem h]
    · rw [sysPrintln, printk, hrun]
      rfl
    · rw [sysPrintln, printk, hrun]
      exact hlen

/-- `sys_println` shows a byte string unchanged exactly if it is inert and fits
the buffer, and `println` shows what `printf` does exactly if that is so for the
formatted string. -/
theorem println_verbatim_iff (kernel : Env) :
    (∀ msg, 0 ∉ msg →
      (Verbatim (sysPrintln kernel msg) msg ↔ Inert msg ∧ msg.length < 1024)) ∧
    ∀ user fmt, Verbatim (println user kernel fmt) (printf user fmt) ↔
      Inert (printf user fmt) ∧ (printf user fmt).length < 1024 :=
  ⟨fun _ h => sysPrintln_iff kernel h, fun _ _ => sysPrintln_iff kernel (cstr_notMem _ _)⟩

/-- A percent sign at the end of a message comes through. -/
theorem println_verbatim_iff_percent :
    0 ∉ [ch '5', ch '%'] ∧ Inert [ch '5', ch '%'] ∧
      Verbatim (sysPrintln ⟨fun _ => 0, fun _ => []⟩ [ch '5', ch '%']) [ch '5', ch '%'] := by
  have hinert : Inert [ch '5', ch '%'] := ⟨by decide, by decide, trivial⟩
  have hnul : 0 ∉ [ch '5', ch '%'] := by decide
  refine ⟨hnul, hinert, ?_⟩
  apply ((println_verbatim_iff ⟨fun _ => 0, fun _ => []⟩).1 _ hnul).mpr
  exact ⟨hinert, by decide⟩

/-- The format `%%d` is the text `%d`, and `println` shows a word of the kernel's
stack for it. -/
theorem second_format_reads_stack :
    printf ⟨fun _ => 0, fun _ => []⟩ [ch '%', ch '%', ch 'd'] = [ch '%', ch 'd'] ∧
      println ⟨fun _ => 0, fun _ => []⟩ ⟨fun _ => 7, fun _ => []⟩ [ch '%', ch '%', ch 'd'] =
        ⟨[ch '7', 0x0a], 1, 2⟩ := by
  decide +kernel

end Bingos.Print
