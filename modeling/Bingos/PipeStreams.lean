import Bingos.PipeFifo

set_option autoImplicit false

/-! A pipe with one writing process: each write begins when the one before has returned. What the
readers get is then the concatenation of what was written. -/
namespace Bingos.Pipe
open StepRuns RingBuffers

def Call.rest : Call → List UInt8
  | .reader _ _ _ => []
  | .writer data written pc => if pc = .returned then [] else data.drop written

def Call.Over : Call → Prop
  | .reader _ _ _ => True
  | .writer _ _ pc => pc = .returned

instance : (c : Call) → Decidable c.Over
  | .reader _ _ _ => inferInstanceAs (Decidable True)
  | .writer _ _ pc => inferInstanceAs (Decidable (pc = .returned))

def Sequential (s : System) : Event → Prop
  | .write _ => ∀ c ∈ s.calls, c.Over
  | _ => True

instance (s : System) : (e : Event) → Decidable (Sequential s e)
  | .write _ => inferInstanceAs (Decidable (∀ c ∈ s.calls, c.Over))
  | .read _ => inferInstanceAs (Decidable True)
  | .proceed _ => inferInstanceAs (Decidable True)

def sequentialStep (s : System) (e : Event) : Option System :=
  if Sequential s e then step s e else none

theorem guarded_of_sequentialStep {s t : System} {e : Event} (h : sequentialStep s e = some t) :
    Guarded Sequential Step s e t := by
  rw [sequentialStep] at h
  split_ifs at h with hseq
  exact ⟨hseq, h⟩

def writesOf (events : List Event) : List (List UInt8) :=
  events.filterMap fun | .write data => some data | _ => none

/-- What is in the pipe and beyond, and what call `i` has still to copy, are the bytes of all
writes; the other write calls have returned. -/
structure Streams (events : List Event) (s : System) (i : ℕ) : Prop where
  alive : s.pipe.dead = false
  others : ∀ j c, j ≠ i → s.calls[j]? = some c → c.Over
  bytes : accepted s.log ++ (s.calls[i]?).elim [] Call.rest = (writesOf events).flatten

section Streams
variable {events : List Event} {s t : System} {i k : ℕ} {c : Call}

theorem Call.Over.rest (h : c.Over) : c.rest = [] := by
  cases c with
  | reader size got pc => rfl
  | writer data written pc => exact if_pos h

theorem writesOf_append (xs ys : List Event) : writesOf (xs ++ ys) = writesOf xs ++ writesOf ys :=
  List.filterMap_append

theorem streams_initial (n : ℕ) (buffer : ℕ → UInt8) : Streams [] (initial n buffer) 0 :=
  ⟨rfl, fun j c _ hc => by simp [initial] at hc, rfl⟩

theorem rest_append (calls : List Call) (hc : c.rest = []) (i : ℕ) :
    ((calls ++ [c])[i]?).elim [] Call.rest = (calls[i]?).elim [] Call.rest := by
  rcases Nat.lt_trichotomy i calls.length with hi | rfl | hi
  · rw [List.getElem?_append_left hi]
  · simp [hc]
  · rw [List.getElem?_eq_none (by simp; omega), List.getElem?_eq_none hi.le]

theorem Streams.read (h : Streams events s i) (size : ℕ) :
    Streams (events ++ [.read size]) { s with calls := s.calls ++ [readPipe s.pipe size] } i := by
  refine ⟨h.alive, fun j c hj hc => ?_, ?_⟩
  · dsimp only at hc
    rw [List.getElem?_append] at hc
    split_ifs at hc
    · exact h.others j c hj hc
    · rw [List.mem_singleton.mp (List.mem_of_getElem? hc)]
      trivial
  · rw [writesOf_append, rest_append _ rfl, h.bytes]
    exact congrArg _ (List.append_nil _).symm

theorem Streams.all (h : Streams events s i) (hover : ∀ c ∈ s.calls, c.Over) :
    accepted s.log = (writesOf events).flatten := by
  rw [← h.bytes]
  cases hc : s.calls[i]? with
  | none => exact (List.append_nil _).symm
  | some c =>
    rw [Option.elim_some, (hover c (List.mem_of_getElem? hc)).rest, List.append_nil]

theorem writePipe_rest {p : PipeDevice} (h : p.dead = false) (data : List UInt8) :
    (writePipe p data).rest = data := by
  rw [writePipe, h, if_neg Bool.false_ne_true]
  split_ifs with hempty
  · exact (List.length_eq_zero_iff.mp hempty).symm
  · rfl

theorem Streams.write (h : Streams events s i) {data : List UInt8}
    (hseq : Sequential s (.write data)) :
    Streams (events ++ [.write data]) { s with calls := s.calls ++ [writePipe s.pipe data] }
      s.calls.length := by
  refine ⟨h.alive, fun j c hj hc => ?_, ?_⟩
  · dsimp only at hc
    rw [List.getElem?_append] at hc
    split_ifs at hc with hlt
    · exact hseq c (List.mem_of_getElem? hc)
    · rw [List.getElem?_eq_none (by simp; omega)] at hc
      cases hc
  · rw [writesOf_append, List.flatten_append, ← h.all hseq, List.getElem?_concat_length,
      Option.elim_some, writePipe_rest h.alive]
    exact congrArg _ (List.append_nil data).symm

theorem Call.rest_at (hp : c.pc ≠ .returned) {pc : Point}
    (hpc : pc = .returned → ¬ c.Unfinished) : (c.at pc).rest = c.rest := by
  cases c with
  | reader size got pc => rfl
  | writer data written pc₀ =>
    have hgoing : pc₀ ≠ .returned := hp
    rw [Call.at, Call.rest, Call.rest, if_neg hgoing]
    split_ifs with hr
    · exact (List.drop_eq_nil_iff.mpr (not_lt.mp (hpc hr))).symm
    · rfl

theorem Call.over_at (hp : c.pc ≠ .returned) (pc : Point) (h : c.Over) : (c.at pc).Over := by
  cases c with
  | reader size got pc => trivial
  | writer data written pc => exact absurd h hp

theorem callStep_rest (hs : callStep s k = some t) : ∃ c c', s.calls[k]? = some c ∧
    t.calls = s.calls.set k c' ∧ t.pipe.dead = s.pipe.dead ∧ (c.Over → c'.Over) ∧
      accepted t.log ++ c'.rest = accepted s.log ++ c.rest := by
  obtain ⟨c, hc, hp, ⟨hserved, rfl⟩ | ⟨pc, _, _, hpc, rfl⟩⟩ :=
    callStep_cases hs
  · cases c with
    | reader size got pc =>
      exact ⟨_, _, hc, rfl, rfl, id, congrArg (· ++ []) (accepted_snoc _ _ _).1⟩
    | writer data written pc =>
      refine ⟨_, _, hc, rfl, rfl, fun hr => absurd hr hp, ?_⟩
      have hlt := hserved.2
      have hgoing : pc ≠ .returned := hp
      have hlog : accepted (Call.transfer s k (.writer data written pc)).log = _ :=
        (accepted_snoc _ _ _).2
      rw [hlog, Call.rest, if_neg Point.noConfusion, Call.rest, if_neg hgoing,
        List.drop_eq_getElem_cons hlt, List.getD_eq_getElem _ _ hlt, List.append_assoc]
      rfl
  · refine ⟨c, c.at pc, hc, rfl, rfl, c.over_at hp pc, ?_⟩
    rw [Call.rest_at hp hpc]
    rfl

theorem Streams.proceed (h : Streams events s i) (hs : callStep s k = some t) :
    Streams (events ++ [.proceed k]) t i := by
  obtain ⟨c, c', hc, hcalls, hdead, hover, hbytes⟩ := callStep_rest hs
  refine ⟨hdead.trans h.alive, fun j d hj hd => ?_, ?_⟩
  · rw [hcalls] at hd
    by_cases hk : k = j
    · subst hk
      rw [get_set hc, Option.some.injEq] at hd
      exact hd ▸ hover (h.others k c hj hc)
    · rw [List.getElem?_set_ne hk] at hd
      exact h.others j d hj hd
  · rw [writesOf_append, List.flatten_append, ← h.bytes, hcalls]
    by_cases hk : k = i
    · subst hk
      rw [get_set hc, hc]
      exact hbytes.trans (List.append_nil _).symm
    · have hdone := h.others k c hk hc
      rw [hdone.rest, (hover hdone).rest, List.append_nil, List.append_nil] at hbytes
      rw [List.getElem?_set_ne hk, hbytes]
      exact (List.append_nil _).symm

theorem Streams.step {e : Event} : (∃ i, Streams events s i) → Guarded Sequential Step s e t →
    ∃ i, Streams (events ++ [e]) t i := by
  rintro ⟨i, h⟩ ⟨hseq, hs⟩
  cases e with
  | read size => exact ⟨i, Option.some.inj hs ▸ h.read size⟩
  | write data => exact ⟨_, Option.some.inj hs ▸ h.write hseq⟩
  | proceed k => exact ⟨i, h.proceed hs⟩

end Streams

section Runs
variable {n : ℕ} {buffer : ℕ → UInt8} {events : List Event} {s : System}

theorem streams_of_reach (h : Reach (Guarded Sequential Step) (initial n buffer) events s) :
    ∃ i, Streams events s i :=
  h.invariant (fun events s => ∃ i, Streams events s i) ⟨0, streams_initial n buffer⟩
    fun _ _ _ _ _ hi hs => Streams.step hi hs

theorem queue_of_reach (hn : 1 ≤ n) (hw : n < 2 ^ 32)
    (h : Reach (Guarded Sequential Step) (initial n buffer) events s) :
    accepted s.log =
      delivered s.log ++ window s.pipe.buffer n s.pipe.readPtr (pipeUnread s.pipe) :=
  (h.forget.invariant (fun _ s => Fifo n s) (Fifo.initial hn hw buffer)
    fun _ _ _ _ _ hi hs => hi.step hs).queue

theorem accepted_written (h : Reach (Guarded Sequential Step) (initial n buffer) events s) :
    accepted s.log <+: (writesOf events).flatten := by
  obtain ⟨i, hi⟩ := streams_of_reach h
  exact ⟨_, hi.bytes⟩

theorem accepted_all (h : Reach (Guarded Sequential Step) (initial n buffer) events s)
    (hover : ∀ c ∈ s.calls, c.Over) : accepted s.log = (writesOf events).flatten := by
  obtain ⟨i, hi⟩ := streams_of_reach h
  exact hi.all hover

/-- With one writing process and any number of readers, in any schedule, what has been read is the
beginning of what was written, and the pipe holds what follows; nothing is missing once the last
write has returned. -/
theorem pipe_is_stream (hn : 1 ≤ n) (hw : n < 2 ^ 32)
    (h : Reach (Guarded Sequential Step) (initial n buffer) events s) :
    delivered s.log ++ window s.pipe.buffer n s.pipe.readPtr (pipeUnread s.pipe) <+:
        (writesOf events).flatten ∧
      ((∀ c ∈ s.calls, c.Over) →
        delivered s.log ++ window s.pipe.buffer n s.pipe.readPtr (pipeUnread s.pipe) =
          (writesOf events).flatten) := by
  rw [← queue_of_reach hn hw h]
  exact ⟨accepted_written h, accepted_all h⟩

end Runs

/-- A write of two bytes, of which one has been read. -/
theorem pipe_is_stream_short : ∃ s,
    Reach (Guarded Sequential Step) (initial 3 fun _ => 0)
      [.write [7, 8], .read 1, .proceed 0, .proceed 0, .proceed 1] s ∧
    delivered s.log = [7] ∧
    delivered s.log ++ window s.pipe.buffer 3 s.pipe.readPtr (pipeUnread s.pipe) <+: [7, 8] := by
  have hrun : (List.foldlM sequentialStep (initial 3 fun _ => 0)
      [.write [7, 8], .read 1, .proceed 0, .proceed 0, .proceed 1]).map (fun s => delivered s.log) =
        some [7] := by decide +kernel
  obtain ⟨s, hs, hlog⟩ := Option.map_eq_some_iff.mp hrun
  have h := Reach.of_foldlM (fun _ _ _ => guarded_of_sequentialStep) hs
  exact ⟨s, h, hlog, (pipe_is_stream (by decide) (by decide) h).1⟩

end Bingos.Pipe
