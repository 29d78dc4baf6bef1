import Bingos.KeyboardBytes
import Bingos.PipeStreams
import Bingos.StringTokens

set_option autoImplicit false

/-! From the keys to the words of a command: the interrupt handler writes to the keyboard's pipe,
`sh_read_line` reads it byte by byte, and `sh_split_line` cuts the line. -/
namespace Bingos.Shell
open StepRuns Pipe Keyboard MaximalRuns

/-- The variables of `sh_read_line`, the bytes it has echoed, and whether it has returned. -/
structure LineState where
  buffer : ℕ → UInt8
  position : ℕ
  echo : List UInt8
  returned : Bool

def rlBufsize : ℕ := 1024

def store (s : LineState) (c : UInt8) : Option LineState :=
  if s.position < rlBufsize then
    some { s with buffer := Function.update s.buffer s.position c, position := s.position + 1 }
  else none

/-- One turn of the loop of `sh_read_line`, with the byte that `read` has delivered. -/
def shReadLine (s : LineState) (c : UInt8) : Option LineState :=
  if s.returned then none
  else if c = 0x0d ∨ c = 0x0a then
    (store s 0).map fun t => { t with echo := t.echo ++ [0x0a], returned := true }
  else if c = 0x08 then
    if s.position ≠ 0 then
      some { s with echo := s.echo ++ [c], position := s.position - 1 }
    else some s
  else store { s with echo := s.echo ++ [c] } c

def begin (buffer : ℕ → UInt8) : LineState := ⟨buffer, 0, [], false⟩

/-- The line as edited: a backspace takes back the character before it, if there is one. -/
def edit (line : List UInt8) : List UInt8 :=
  line.foldl (fun text c => if c = 0x08 then text.dropLast else text ++ [c]) []

def Ends (c : UInt8) : Prop := c = 0x0d ∨ c = 0x0a

structure Editing (text : List UInt8) (s : LineState) : Prop where
  going : s.returned = false
  bytes : (List.range s.position).map s.buffer = text

theorem edit_snoc (line : List UInt8) (c : UInt8) :
    edit (line ++ [c]) = if c = 0x08 then (edit line).dropLast else edit line ++ [c] := by
  rw [edit, List.foldl_append]
  rfl

section Lines
variable {text : List UInt8} {s t : LineState} {c : UInt8}

theorem shReadLine_end (hgoing : s.returned = false) (hc : Ends c) : shReadLine s c =
    (store s 0).map fun t => { t with echo := t.echo ++ [0x0a], returned := true } := by
  rw [shReadLine, if_neg (by simp [hgoing])]
  exact if_pos hc

theorem shReadLine_back (hgoing : s.returned = false) : shReadLine s 0x08 =
    if s.position ≠ 0 then some { s with echo := s.echo ++ [0x08], position := s.position - 1 }
    else some s := by
  rw [shReadLine, if_neg (by simp [hgoing]), if_neg (by decide), if_pos rfl]

theorem shReadLine_char (hgoing : s.returned = false) (hc : ¬ Ends c) (hback : c ≠ 0x08) :
    shReadLine s c = store { s with echo := s.echo ++ [c] } c := by
  rw [shReadLine, if_neg (by simp [hgoing])]
  exact (if_neg hc).trans (if_neg hback)

theorem store_eq_some (h : store s c = some t) :
    t = { s with buffer := Function.update s.buffer s.position c, position := s.position + 1 } := by
  rw [store] at h
  split_ifs at h
  exact (Option.some.inj h).symm

theorem map_range_update (f : ℕ → UInt8) (n : ℕ) (c : UInt8) :
    (List.range (n + 1)).map (Function.update f n c) = (List.range n).map f ++ [c] := by
  rw [List.range_succ, List.map_append, List.map_singleton, Function.update_self]
  congr 1
  apply List.map_congr_left
  intro i hi
  rw [Function.update_of_ne (List.mem_range.mp hi).ne]

theorem Editing.position (h : Editing text s) : s.position = text.length := by
  rw [← h.bytes, List.length_map, List.length_range]

theorem Editing.append (h : Editing text s) (hc : ¬ Ends c) (hback : c ≠ 0x08)
    (hs : shReadLine s c = some t) : Editing (text ++ [c]) t := by
  rw [shReadLine_char h.going hc hback] at hs
  obtain rfl := store_eq_some hs
  exact ⟨h.going, (map_range_update ..).trans (congrArg (· ++ [c]) h.bytes)⟩

theorem Editing.erase (h : Editing text s) (hs : shReadLine s 0x08 = some t) :
    Editing text.dropLast t := by
  rw [shReadLine_back h.going] at hs
  rw [← h.bytes]
  split_ifs at hs with hpos
  · cases hs
    obtain ⟨n, hn⟩ := Nat.exists_eq_succ_of_ne_zero hpos
    refine ⟨h.going, ?_⟩
    dsimp only
    rw [hn, List.range_succ, List.map_append, List.map_singleton, List.dropLast_concat]
    rfl
  · cases hs
    refine ⟨h.going, ?_⟩
    rw [not_not.mp hpos]
    rfl

theorem Editing.step {line : List UInt8} (h : Editing (edit line) s) (hc : ¬ Ends c)
    (hs : shReadLine s c = some t) : Editing (edit (line ++ [c])) t := by
  rw [edit_snoc]
  split_ifs with hback
  · subst hback
    exact h.erase hs
  · exact h.append hc hback hs

theorem Editing.finish (h : Editing text s) (hc : Ends c) (hs : shReadLine s c = some t) :
    t.returned = true ∧ t.position = text.length + 1 ∧
      (List.range t.position).map t.buffer = text ++ [0] := by
  rw [shReadLine_end h.going hc] at hs
  obtain ⟨u, hu, rfl⟩ := Option.map_eq_some_iff.mp hs
  obtain rfl := store_eq_some hu
  exact ⟨rfl, congrArg (· + 1) h.position,
    (map_range_update ..).trans (congrArg (· ++ [0]) h.bytes)⟩

end Lines

variable {bytes : List UInt8} {codes : List ℕ} {buffer : ℕ → UInt8}

/-- The loop reads one line: it returns at the first end of a line and has then the edited text in
its buffer. -/
theorem shReadLine_run {input : List UInt8} {t : LineState}
    (h : input.foldlM shReadLine (begin buffer) = some t) :
    (t.returned = false ∧ (∀ c ∈ input, ¬ Ends c) ∧ Editing (edit input) t) ∨
      ∃ line fin, input = line ++ [fin] ∧ Ends fin ∧ (∀ c ∈ line, ¬ Ends c) ∧ t.returned = true ∧
        t.position = (edit line).length + 1 ∧
        (List.range t.position).map t.buffer = edit line ++ [0] := by
  induction input using List.reverseRecOn generalizing t with
  | nil =>
    cases h
    exact Or.inl ⟨rfl, fun c hc => absurd hc List.not_mem_nil, rfl, rfl⟩
  | append_singleton input c ih =>
    rw [List.foldlM_append] at h
    obtain ⟨u, hu, hlast⟩ := Option.bind_eq_some_iff.mp h
    have hs : shReadLine u c = some t := by simpa using hlast
    rcases ih hu with ⟨hgoing, hplain, hedit⟩ | ⟨line, fin, rfl, hfin, hplain, hdone, -⟩
    · by_cases hc : Ends c
      · exact Or.inr ⟨input, c, rfl, hc, hplain, hedit.finish hc hs⟩
      · have hnext := hedit.step hc hs
        exact Or.inl ⟨hnext.going,
          List.forall_mem_append.mpr ⟨hplain, List.forall_mem_singleton.mpr hc⟩, hnext⟩
    · rw [shReadLine, if_pos hdone] at hs
      cases hs

section Plain
variable {text : List UInt8} {s : LineState} {c : UInt8}

theorem Editing.exists_step (h : Editing text s) (hroom : text.length < rlBufsize)
    (hback : ¬ Ends c → c ≠ 0x08) : ∃ t, shReadLine s c = some t := by
  rw [← h.position] at hroom
  by_cases hc : Ends c
  · exact ⟨_, by rw [shReadLine_end h.going hc, store, if_pos hroom]; rfl⟩
  · exact ⟨_, by rw [shReadLine_char h.going hc (hback hc), store, if_pos hroom]⟩

theorem shReadLine_plain (buffer : ℕ → UInt8) (hlen : text.length ≤ rlBufsize)
    (htext : ∀ c ∈ text, ¬ Ends c ∧ c ≠ 0x08) :
    ∃ t, text.foldlM shReadLine (begin buffer) = some t ∧ Editing text t := by
  induction text using List.reverseRecOn with
  | nil => exact ⟨_, rfl, rfl, rfl⟩
  | append_singleton text c ih =>
    rw [List.length_append, List.length_singleton] at hlen
    rw [List.forall_mem_append, List.forall_mem_singleton] at htext
    obtain ⟨u, hu, hedit⟩ := ih (by omega) htext.1
    obtain ⟨hc, hback⟩ := htext.2
    obtain ⟨t, ht⟩ := hedit.exists_step (by omega) fun _ => hback
    refine ⟨t, ?_, hedit.append hc hback ht⟩
    rw [List.foldlM_append, hu]
    simpa using ht

theorem shReadLine_plain_line (buffer : ℕ → UInt8) (hlen : text.length < rlBufsize)
    (htext : ∀ c ∈ text, ¬ Ends c ∧ c ≠ 0x08) {fin : UInt8} (hfin : Ends fin) :
    ∃ t, (text ++ [fin]).foldlM shReadLine (begin buffer) = some t ∧ t.returned = true ∧
      (List.range (text.length + 1)).map t.buffer = text ++ [0] := by
  obtain ⟨u, hu, hedit⟩ := shReadLine_plain buffer hlen.le htext
  obtain ⟨t, ht⟩ := hedit.exists_step hlen (absurd hfin)
  obtain ⟨hreturned, hposition, hbytes⟩ := hedit.finish hfin ht
  refine ⟨t, ?_, hreturned, hposition ▸ hbytes⟩
  rw [List.foldlM_append, hu]
  simpa using ht

end Plain

def PlainCode (code : ℕ) : Prop := InTable code ∧ ¬ IsShift code ∧ code ≠ 0x3a

def releaseOf (code : ℕ) : Option UInt8 :=
  if code = 0xe0 ∨ code = 0xe1 ∨ code < 0x80 then none
  else some (UInt8.ofNat (kkybrdScancodeStd.getD (code - 0x80) 0))

def releases (codes : List ℕ) : List UInt8 := codes.filterMap releaseOf

theorem releases_snoc (codes : List ℕ) (code : ℕ) :
    releases (codes ++ [code]) = releases codes ++ (releaseOf code).toList := by
  rw [releases, List.filterMap_append, List.filterMap_cons]
  cases releaseOf code <;> rfl

theorem modifiers_of_plain (h : ∀ code ∈ codes, PlainCode code) :
    shiftAfter codes = false ∧ capslockAfter codes = false := by
  induction codes using List.reverseRecOn with
  | nil => exact ⟨rfl, rfl⟩
  | append_singleton codes code ih =>
    rw [List.forall_mem_append, List.forall_mem_singleton] at h
    obtain ⟨hshift, hcaps⟩ := ih h.1
    obtain ⟨-, hns, hnc⟩ := h.2
    exact ⟨by rw [shiftAfter_snoc, if_neg hns, hshift],
      by rw [capslockAfter_snoc, if_neg hnc, hcaps]⟩

theorem table_ascii (i : Fin 83) : kkybrdKeyToAscii false false (kkybrdScancodeStd.getD i 0) =
    UInt8.ofNat (kkybrdScancodeStd.getD i 0) := by
  revert i
  decide +kernel

theorem byteAfter_plain {code : ℕ} (h : ∀ c ∈ codes, PlainCode c)
    (hlt : code < 256) (hin : InTable code) : byteAfter codes code = releaseOf code := by
  obtain ⟨hshift, hcaps⟩ := modifiers_of_plain h
  rw [InTable] at hin
  rw [byteAfter, releaseOf]
  split_ifs with hskip
  · rfl
  · rw [hshift, hcaps, table_ascii ⟨code - 0x80, by omega⟩]

theorem bytesOf_plain (hcodes : ∀ code ∈ codes, code < 256)
    (h : ∀ code ∈ codes, PlainCode code) : bytesOf codes = releases codes := by
  induction codes using List.reverseRecOn with
  | nil => rfl
  | append_singleton codes code ih =>
    rw [List.forall_mem_append, List.forall_mem_singleton] at hcodes h
    rw [bytesOf_snoc, releases_snoc, ih hcodes.1 h.1, byteAfter_plain h.1 hcodes.2 h.2.1]

theorem delivered_typed {n : ℕ} (hn : 1 ≤ n) (hw : n < 2 ^ 32) {events : List Event} {s : System}
    (h : Reach (Guarded Sequential Step) (initial n buffer) events s)
    (hwrites : writesOf events = bytes.map fun c => [c]) : delivered s.log <+: bytes := by
  have hpre := accepted_written h
  rw [hwrites, ← List.flatMap_def, List.flatMap_singleton', queue_of_reach hn hw h] at hpre
  exact (List.prefix_append _ _).trans hpre

theorem bytes_of_run {k : Kbd}
    (hcodes : ∀ code ∈ codes, code < 256) (h : kbdRun start codes = some (k, bytes)) :
    bytes = bytesOf codes := by
  by_cases hin : ∀ code ∈ codes, InTable code
  · obtain ⟨s, hrun, -⟩ := kbdRun_inside hcodes hin
    rw [h] at hrun
    cases hrun
    rfl
  · rw [kbdRun_outside hcodes hin] at h
    cases h

/-- Whatever is typed and however the interrupts and the shell's reads fall: the line that
`sh_read_line` returns is the first line of the keyboard's bytes, as edited. -/
theorem shell_line_is_typed {n : ℕ} (hn : 1 ≤ n) (hw : n < 2 ^ 32) {buffer line : ℕ → UInt8}
    {codes : List ℕ} {k : Kbd} {bytes : List UInt8} {events : List Event} {s : System}
    {t : LineState} (hcodes : ∀ code ∈ codes, code < 256)
    (hkeys : kbdRun start codes = some (k, bytes))
    (h : Reach (Guarded Sequential Step) (initial n buffer) events s)
    (hwrites : writesOf events = bytes.map fun c => [c])
    (hline : (delivered s.log).foldlM shReadLine (begin line) = some t)
    (hdone : t.returned = true) :
    ∃ typed fin rest, bytesOf codes = typed ++ fin :: rest ∧ Ends fin ∧ (∀ c ∈ typed, ¬ Ends c) ∧
      (List.range t.position).map t.buffer = edit typed ++ [0] := by
  obtain ⟨rest, hrest⟩ := delivered_typed hn hw h hwrites
  rcases shReadLine_run hline with ⟨hgoing, -⟩ | ⟨typed, fin, hinput, hfin, hplain, -, -, hbytes⟩
  · rw [hdone] at hgoing
    cases hgoing
  · refine ⟨typed, fin, rest, ?_, hfin, hplain, hbytes⟩
    rw [← bytes_of_run hcodes hkeys, ← hrest, hinput, List.append_assoc]
    rfl

def letterEvents : List Event :=
  [.read 1, .write [0x61], .proceed 1, .proceed 1, .proceed 1, .proceed 1, .proceed 0, .proceed 0,
    .proceed 0, .proceed 0, .write [0x0d], .proceed 2, .proceed 2, .proceed 2, .proceed 2, .read 1,
    .proceed 3, .proceed 3, .proceed 3, .proceed 3]

theorem letter_run : ∃ s k,
    Reach (Guarded Sequential Step) (initial 256 fun _ => 0) letterEvents s ∧
      delivered s.log = [0x61, 0x0d] ∧ (∀ c ∈ s.calls, c.Over) ∧ pipeUnread s.pipe = 0 ∧
      kbdRun start [0x1e, 0x9e, 0x1c, 0x9c] = some (k, [0x61, 0x0d]) := by
  have hrun : (List.foldlM sequentialStep (initial 256 fun _ => 0) letterEvents).map (fun s =>
      (delivered s.log, decide (∀ c ∈ s.calls, c.Over), pipeUnread s.pipe)) =
        some ([0x61, 0x0d], true, 0) := by decide +kernel
  obtain ⟨s, hs, hend⟩ := Option.map_eq_some_iff.mp hrun
  simp only [Prod.mk.injEq, decide_eq_true_eq] at hend
  exact ⟨s, _, Reach.of_foldlM (fun _ _ _ => guarded_of_sequentialStep) hs, hend.1, hend.2.1,
    hend.2.2, rfl⟩

theorem shell_line_is_typed_letter : ∃ (s : System) (t : LineState),
    Reach (Guarded Sequential Step) (initial 256 fun _ => 0) letterEvents s ∧
    (delivered s.log).foldlM shReadLine (begin fun _ => 0) = some t ∧
    ∃ typed fin rest, bytesOf [0x1e, 0x9e, 0x1c, 0x9c] = typed ++ fin :: rest ∧ Ends fin ∧
      (∀ c ∈ typed, ¬ Ends c) ∧ (List.range t.position).map t.buffer = edit typed ++ [0] := by
  obtain ⟨s, k, h, hlog, -, -, hkeys⟩ := letter_run
  obtain ⟨t, hline, hdone⟩ : ∃ t, (delivered s.log).foldlM shReadLine (begin fun _ => 0) = some t ∧
      t.returned = true := hlog ▸ ⟨_, rfl, rfl⟩
  exact ⟨s, t, h, hline,
    shell_line_is_typed (by decide) (by decide) (by decide) hkeys h rfl hline hdone⟩

def tokCells : ℕ := 64 / 4

/-- The words that `sh_split_line` finds, for a text typed without shift and caps lock that fits
into the buffer and has no more words than the array has cells, once the shell has read it all. -/
theorem typed_command_reaches_words {n : ℕ} (hn : 1 ≤ n) (hw : n < 2 ^ 32) {buffer line : ℕ → UInt8}
    {codes : List ℕ} {k : Kbd} {bytes text : List UInt8} {events : List Event} {s : System}
    {ws : List Span} (hcodes : ∀ code ∈ codes, code < 256) (hplain : ∀ code ∈ codes, PlainCode code)
    (hkeys : kbdRun start codes = some (k, bytes)) (htyped : releases codes = text ++ [0x0d])
    (hlen : text.length < rlBufsize) (htext : ∀ c ∈ text, c ≠ 0 ∧ ¬ Ends c ∧ c ≠ 0x08)
    (hwords : Runs (· ∈ [0x20]) text ws) (hcells : ws.length ≤ tokCells)
    (h : Reach (Guarded Sequential Step) (initial n buffer) events s)
    (hwrites : writesOf events = bytes.map fun c => [c]) (hover : ∀ c ∈ s.calls, c.Over)
    (hempty : pipeUnread s.pipe = 0) (last : ℕ) (tokens : ℕ → ℕ) :
    ∃ t, (delivered s.log).foldlM shReadLine (begin line) = some t ∧ t.returned = true ∧
      ∃ split, Tokens.shSplitLine (ws.length + 1) ((List.range rlBufsize).map t.buffer) tokens last =
          some split ∧
        split.tlen = ws.length ∧ (∀ i (hi : i < ws.length), split.tokens i = ws[i].start) ∧
        ∀ i, tokCells ≤ i → split.tokens i = tokens i := by
  have hbytes : bytes = text ++ [0x0d] := by
    rw [bytes_of_run hcodes hkeys, bytesOf_plain hcodes hplain, htyped]
  have hall : delivered s.log = text ++ [0x0d] := by
    have hqueue := queue_of_reach hn hw h
    rw [hempty, RingBuffers.window_zero, List.append_nil] at hqueue
    rw [← hqueue, accepted_all h hover, hwrites, hbytes, ← List.flatMap_def,
      List.flatMap_singleton']
  obtain ⟨t, hrun, hreturned, hstored⟩ := shReadLine_plain_line line hlen
    (fun c hc => (htext c hc).2) (Or.inl rfl : Ends 0x0d)
  obtain ⟨vs, hsplits⟩ := exists_splits (· ∈ [(0x20 : UInt8)]) 0 text
  obtain rfl := hwords.unique hsplits.runs
  have hzero : 0 ∉ text := fun hmem => (htext 0 hmem).1 rfl
  have hbuffer : (List.range rlBufsize).map t.buffer = text ++ 0 ::
      (List.range (rlBufsize - (text.length + 1))).map fun i => t.buffer (text.length + 1 + i) := by
    rw [show rlBufsize = text.length + 1 + (rlBufsize - (text.length + 1)) by omega,
      List.range_add, List.map_append, hstored, List.map_map]
    simp
  have hsplit := Tokens.shSplitLine_eq hzero ((List.range (rlBufsize - (text.length + 1))).map
    fun i => t.buffer (text.length + 1 + i)) hsplits (Nat.lt_succ_self _) tokens last
  rw [← hbuffer] at hsplit
  refine ⟨t, hall ▸ hrun, hreturned, _, hsplit, rfl, fun i hi => ?_, fun i hi => ?_⟩
  · simp [hi]
  · simp [List.getElem?_eq_none (hcells.trans hi)]

theorem letter_words : Runs (· ∈ [0x20]) [(0x61 : UInt8)] [⟨0, 1⟩] :=
  (@Splits.last _ (· ∈ [0x20]) 0 [] [0x61] (List.forall_mem_nil _) (by simp) (by simp)).runs

theorem typed_command_reaches_words_letter : ∃ (s : System) (t : LineState),
    Reach (Guarded Sequential Step) (initial 256 fun _ => 0) letterEvents s ∧
    (delivered s.log).foldlM shReadLine (begin fun _ => 0) = some t ∧
    ∃ split, Tokens.shSplitLine 2 ((List.range rlBufsize).map t.buffer) (fun _ => 0) 0 =
        some split ∧
      split.tlen = 1 ∧ (∀ i (hi : i < [(⟨0, 1⟩ : Span)].length),
        split.tokens i = [(⟨0, 1⟩ : Span)][i].start) ∧
      ∀ i, tokCells ≤ i → split.tokens i = 0 := by
  obtain ⟨s, k, h, -, hover, hempty, hkeys⟩ := letter_run
  have hplain : ∀ code ∈ [0x1e, 0x9e, 0x1c, 0x9c], PlainCode code := by
    simp [PlainCode, InTable, IsShift]
  obtain ⟨t, hline, -, hwords⟩ := typed_command_reaches_words (by decide) (by decide) (by decide)
    hplain hkeys (show _ = [0x61] ++ [0x0d] by decide +kernel) (by decide) (by simp [Ends])
    letter_words (by decide) h rfl hover hempty 0 fun _ => 0
  exact ⟨s, t, h, hline, hwords⟩

end Bingos.Shell
