import Bingos.PipeFifo

set_option autoImplicit false

/-! How pipe calls wait for each other: without preemption no pair of a reader and a writer is
stuck, and no call spins. A switch out of `sys_sleep`, which has turned interrupts on, lets the
timer preempt the next call; the last section is about those runs. -/
namespace Bingos.Pipe
open StepRuns RingBuffers TwoSidedWaits

/-- What holds between turns: every call is settled and was asked for, and the queues are those of
a run in which the two sides wait for each other. -/
structure Waiting (past : List Event) (s : System) : Prop where
  calls : ∀ (i : ℕ) (c : Call), s.calls[i]? = some c → c.Settled ∧ c.request ∈ past
  queues : ∃ moves, Reach TwoSidedWaits.Step empty moves (waits s)

variable {c : Call} {e : Event} {past : List Event} {s t : System} {i : ℕ} {b : Bool}

section Waiting

theorem waiting_initial (n : ℕ) (buffer : ℕ → UInt8) : Waiting [] (initial n buffer) := by
  refine ⟨fun i c hc => ?_, [], ?_⟩
  · simp [initial] at hc
  · have hempty : waits (initial n buffer) = empty := by
      refine Waits.ext (funext fun b => rfl) (funext fun b => ?_)
      cases b <;> rfl
    exact hempty ▸ .start

theorem Waiting.addCall (h : Waiting past s) (hc : c.Settled) :
    Waiting (past ++ [c.request]) { s with calls := s.calls ++ [c] } := by
  refine ⟨fun i d hd => ?_, ?_⟩
  · change (s.calls ++ [c])[i]? = some d at hd
    rw [List.getElem?_append] at hd
    split_ifs at hd
    · obtain ⟨hset, hreq⟩ := h.calls i d hd
      exact ⟨hset, List.mem_append_left _ hreq⟩
    · obtain rfl := List.mem_singleton.mp (List.mem_of_getElem? hd)
      exact ⟨hc, List.mem_append_right _ (List.mem_singleton_self _)⟩
  · obtain ⟨moves, hmoves⟩ := h.queues
    rw [waits_addCall]
    split_ifs
    · exact ⟨moves, hmoves⟩
    · have hnew : s.calls.length ∉ (waits s).pending c.side := by
        intro hmem
        obtain ⟨d, hd, -⟩ := mem_pendingOn.mp hmem
        simp at hd
      exact ⟨_, .next hmoves (.arrive hnew)⟩

theorem Waiting.outcome (h : Waiting past s) (hi : i ∈ awake (waits s) b)
    (ht : Turn i s t) : ∃ c c', s.calls[i]? = some c ∧ c.side = b ∧ c.pc ≠ .returned ∧
      Outcome i c c' s t ∧ (c.Served s.pipe → c.done < c'.done) := by
  obtain ⟨c, hc, hside, hp⟩ := mem_pendingOn.mp (mem_awake.mp hi).1
  obtain ⟨c', ho, hmoves⟩ := ht.outcome hc (h.calls i c hc).1 hp
  exact ⟨c, c', hc, hside, hp, ho, hmoves⟩

theorem Waiting.turn (h : Waiting past s) (hi : i ∈ awake (waits s) b)
    (ht : Turn i s t) : Waiting (past ++ [.proceed i]) t := by
  obtain ⟨c, c', hc, rfl, hp, ho, -⟩ := h.outcome hi ht
  refine ⟨fun j d hd => ?_, ?_⟩
  · rw [ho.calls] at hd
    by_cases hj : i = j
    · subst hj
      rw [get_set hc, Option.some.injEq] at hd
      subst hd
      exact ⟨ho.settled, List.mem_append_left _ (ho.request ▸ (h.calls i c hc).2)⟩
    · rw [List.getElem?_set_ne hj] at hd
      obtain ⟨hset, hreq⟩ := h.calls j d hd
      exact ⟨hset, List.mem_append_left _ hreq⟩
  · obtain ⟨moves, hmoves⟩ := h.queues
    rcases ho.moves with ⟨-, hw⟩ | ⟨-, hw⟩
    · rw [hw]
      exact ⟨_, .next hmoves (.leave hi)⟩
    · rw [hw]
      exact ⟨_, .next hmoves (.rest hi)⟩

theorem settled_readPipe (p : PipeDevice) (size : ℕ) : (readPipe p size).Settled := by
  rw [readPipe]
  split_ifs
  · exact Or.inl rfl
  · exact Or.inr ⟨Or.inl rfl, rfl⟩

theorem settled_writePipe (p : PipeDevice) (data : List UInt8) : (writePipe p data).Settled := by
  rw [writePipe]
  split_ifs with hdead hempty
  · exact Or.inl rfl
  · exact Or.inl rfl
  · exact Or.inr ⟨Or.inl rfl, Nat.pos_of_ne_zero hempty⟩

theorem Waiting.step (h : Waiting past s) (hs : Scheduled s e t) :
    Waiting (past ++ [e]) t := by
  cases e with
  | read size => exact Option.some.inj hs ▸ h.addCall (settled_readPipe s.pipe size)
  | write data => exact Option.some.inj hs ▸ h.addCall (settled_writePipe s.pipe data)
  | proceed i =>
    obtain ⟨⟨b, hi⟩, ht⟩ := hs
    exact h.turn hi ht

theorem waiting_of_reach {n : ℕ} {buffer : ℕ → UInt8}
    (h : Reach Scheduled (initial n buffer) past s) : Waiting past s :=
  h.invariant Waiting (waiting_initial n buffer) fun _ _ _ _ _ hi hs => hi.step hs

end Waiting

/-- As long as a reader and a writer are waiting, some call can take a turn. -/
theorem pipe_calls_never_deadlock {n : ℕ} {buffer : ℕ → UInt8} {events : List Event} {s : System}
    (h : Reach Scheduled (initial n buffer) events s) {i j size written : ℕ}
    {got data : List UInt8} {p q : Point} (hr : s.calls[i]? = some (.reader size got p))
    (hp : p ≠ .returned) (hw : s.calls[j]? = some (.writer data written q)) (hq : q ≠ .returned) :
    ∃ k t, Scheduled s (.proceed k) t := by
  have hwait := waiting_of_reach h
  obtain ⟨moves, hmoves⟩ := hwait.queues
  have hboth : ∀ b, ((waits s).pending b).Nonempty := by
    intro b
    cases b with
    | true => exact ⟨i, mem_pendingOn.mpr ⟨_, hr, rfl, hp⟩⟩
    | false => exact ⟨j, mem_pendingOn.mpr ⟨_, hw, rfl, hq⟩⟩
  obtain ⟨b, k, hk⟩ := (awake_of_reach hmoves).2 hboth
  obtain ⟨c, hc, -, hpc⟩ := mem_pendingOn.mp (mem_awake.mp hk).1
  obtain ⟨t, -, ht, -⟩ := exists_outcome hc (hwait.calls k c hc).1 hpc
  exact ⟨k, t, ⟨b, hk⟩, ht⟩

theorem scheduled_reader_empty (n size : ℕ) (buffer : ℕ → UInt8) :
    Scheduled ⟨createPipe n buffer, [.reader size [] .copying], []⟩ (.proceed 0)
      ⟨{ createPipe n buffer with waitQueueReaders := [0] }, [.reader size [] .sleeping], []⟩ := by
  refine ⟨⟨true, mem_awake.mpr ⟨mem_pendingOn.mpr ⟨_, rfl, rfl, Point.noConfusion⟩,
    List.not_mem_nil⟩⟩, .more rfl ?_ (.more rfl ?_ (.last rfl ⟨_, rfl, Or.inl rfl⟩))⟩ <;>
  exact fun h => absurd ((rests_iff rfl).mp h) (by simp [Call.pc])

theorem scheduled_read (n size : ℕ) (buffer : ℕ → UInt8) :
    Reach Scheduled (initial n buffer) [.read size]
      ⟨createPipe n buffer, [.reader size [] .copying], []⟩ :=
  .next .start rfl

/-- A reader sleeps when the writer comes. -/
theorem pipe_calls_never_deadlock_pair :
    ∃ s, Reach Scheduled (initial 3 fun _ => 0) [.read 1, .proceed 0, .write [7]] s ∧
      s.calls = [.reader 1 [] .sleeping, .writer [7] 0 .copying] ∧
      ∃ k t, Scheduled s (.proceed k) t := by
  have hsleep := (scheduled_read 3 1 fun _ => 0).next (scheduled_reader_empty 3 1 fun _ => 0)
  have hwrite : Reach Scheduled (initial 3 fun _ => 0) [.read 1, .proceed 0, .write [7]] _ :=
    hsleep.next (show Scheduled _ (.write [7]) _ from rfl)
  exact ⟨_, hwrite, rfl, pipe_calls_never_deadlock hwrite (i := 0) (j := 1) rfl (by decide) rfl
    (by decide)⟩

section Stalls
variable {n : ℕ}

theorem Turn.fifo (h : Turn i s t) (hf : Fifo n s) : Fifo n t := by
  induction h with
  | last h _ => exact hf.step (e := .proceed i) h
  | more h _ _ ih => exact ih (hf.step (e := .proceed i) h)

theorem Scheduled.fifo (h : Scheduled s e t) (hf : Fifo n s) : Fifo n t := by
  cases e with
  | read size => exact hf.step h
  | write data => exact hf.step h
  | proceed i => exact h.2.fifo hf

theorem Fifo.unread (h : Fifo n s) :
    pipeUnread s.pipe = (accepted s.log).length - (delivered s.log).length := by
  rw [h.queue, List.length_append, window_length, Nat.add_sub_cancel_left]

/-- The side whose turns transfer nothing: readers of an empty pipe, writers of a full one. -/
def idleSide (log : List Transfer) : Bool := (accepted log).length ≤ (delivered log).length

theorem Waiting.served (h : Waiting past s)
    (hf : Fifo n s) (hn : 2 ≤ n) (hreads : ∀ size, .read size ∈ past → 0 < size)
    (hc : s.calls[i]? = some c) (hp : c.pc ≠ .returned) (hside : c.side ≠ idleSide s.log) :
    c.Served s.pipe := by
  obtain ⟨hset, hreq⟩ := h.calls i c hc
  have hsum := unread_add_available hf.pointers
  have hunread := hf.unread
  cases c with
  | reader size got pc =>
    have hgot : got.length = 0 := (hset.resolve_left hp).2
    have hbusy : (delivered s.log).length < (accepted s.log).length := by
      simpa [Call.side, idleSide] using hside
    have hsize := hreads size hreq
    exact ⟨by omega, by omega⟩
  | writer data written pc =>
    have hidle : (accepted s.log).length ≤ (delivered s.log).length := by
      simpa [Call.side, idleSide] using hside
    exact ⟨by omega, (hset.resolve_left hp).2⟩

theorem Waiting.idle_turn (h : Waiting past s) (hf : Fifo n s)
    (hn : 2 ≤ n) (hreads : ∀ size, .read size ∈ past → 0 < size)
    (hs : Scheduled s (.proceed i) t) (hlog : t.log = s.log) :
    (awake (waits t) (idleSide s.log)).card + 1 = (awake (waits s) (idleSide s.log)).card := by
  obtain ⟨⟨b, hi⟩, ht⟩ := hs
  obtain ⟨c, c', hc, rfl, hp, ho, hmoves⟩ := h.outcome hi ht
  have hside : c.side = idleSide s.log := by
    by_contra hside
    have hmore := hmoves (h.served hf hn hreads hc hp hside)
    obtain ⟨moved, hmoved, hdone⟩ := ho.log
    have hlen := congrArg List.length hmoved
    rw [hlog, List.length_append] at hlen
    omega
  have hawake : awake (waits t) c.side = (awake (waits s) c.side).erase i := by
    rcases ho.moves with ⟨-, hw⟩ | ⟨-, hw⟩
    · rw [hw, awake_leave]
    · rw [hw, awake_rest]
  rw [← hside, hawake]
  exact Finset.card_erase_add_one hi

theorem Waiting.log_grows (h : Waiting past s) (hs : Scheduled s e t) : s.log <+: t.log := by
  cases e with
  | read size => exact Option.some.inj hs ▸ List.prefix_rfl
  | write data => exact Option.some.inj hs ▸ List.prefix_rfl
  | proceed i =>
    obtain ⟨⟨b, hi⟩, ht⟩ := hs
    obtain ⟨c, c', -, -, -, ho, -⟩ := h.outcome hi ht
    obtain ⟨moved, hmoved, -⟩ := ho.log
    exact hmoved ▸ List.prefix_append ..

theorem idle_run {turns : List Event} (h : Waiting past s) (hf : Fifo n s) (hn : 2 ≤ n)
    (hreads : ∀ size, .read size ∈ past → 0 < size)
    (hturns : ∀ e ∈ turns, ∃ i, e = .proceed i) (hrun : Reach Scheduled s turns t) :
    Waiting (past ++ turns) t ∧ Fifo n t ∧ s.log <+: t.log ∧
      (t.log = s.log → turns.length + (awake (waits t) (idleSide s.log)).card =
        (awake (waits s) (idleSide s.log)).card) := by
  induction hrun with
  | start => exact ⟨by rwa [List.append_nil], hf, List.prefix_rfl, fun _ => Nat.zero_add _⟩
  | @next turns u t e _ hs ih =>
    rw [List.forall_mem_append, List.forall_mem_singleton] at hturns
    obtain ⟨hu, hfu, hpre, hcount⟩ := ih hturns.1
    obtain ⟨i, rfl⟩ := hturns.2
    have hlast := hu.log_grows hs
    refine ⟨?_, hs.fifo hfu, hpre.trans hlast, fun hlog => ?_⟩
    · rw [← List.append_assoc]
      exact hu.step hs
    · -- the run so far left the log as it was
      have hulog : u.log = s.log := List.IsPrefix.eq_of_length_le (hlog ▸ hlast) hpre.length_le
      have hreads' : ∀ size, .read size ∈ past ++ turns → 0 < size := by
        intro size hmem
        rcases List.mem_append.mp hmem with hmem | hmem
        · exact hreads size hmem
        · obtain ⟨i, hi⟩ := hturns.1 _ hmem
          cases hi
      have hidle := hu.idle_turn hfu hn hreads' hs (hlog.trans hulog.symm)
      rw [hulog] at hidle
      have hsum := hcount hulog
      rw [List.length_append, List.length_singleton]
      omega

end Stalls

/-- Turns without a transfer come to an end: no call spins. The calls that are awake, on the side
that has nothing to do, are a bound. -/
theorem pipe_stalls_are_short {n : ℕ} (hn : 2 ≤ n) (hw : n < 2 ^ 32) {buffer : ℕ → UInt8}
    {past : List Event} {s t : System} (h : Reach Scheduled (initial n buffer) past s)
    (hreads : ∀ size, .read size ∈ past → 0 < size) {turns : List ℕ}
    (hrun : Reach Scheduled s (turns.map .proceed) t) (hlog : t.log = s.log) :
    turns.length ≤ max (awake (waits s) true).card (awake (waits s) false).card := by
  have hf : Fifo n s := h.invariant (fun _ s => Fifo n s) (Fifo.initial (by omega) hw buffer)
    fun _ _ _ _ _ hi hs => hs.fifo hi
  have hcount := (idle_run (waiting_of_reach h) hf hn hreads
    (List.forall_mem_map.mpr fun i _ => ⟨i, rfl⟩) hrun).2.2.2 hlog
  rw [List.length_map] at hcount
  cases hb : idleSide s.log <;> rw [hb] at hcount <;> omega

theorem pipe_stalls_are_short_sleep : ∃ s t, Reach Scheduled (initial 3 fun _ => 0) [.read 1] s ∧
    Reach Scheduled s [.proceed 0] t ∧ t.log = s.log ∧
      [0].length ≤ max (awake (waits s) true).card (awake (waits s) false).card := by
  have hread := scheduled_read 3 1 fun _ => 0
  have hrun := Reach.start.next (scheduled_reader_empty 3 1 fun _ => 0)
  have hsize : ∀ size, Event.read size ∈ [Event.read 1] → 0 < size := by
    intro size h
    cases List.mem_singleton.mp h
    exact Nat.one_pos
  exact ⟨_, _, hread, hrun, rfl,
    @pipe_stalls_are_short 3 (by decide) (by decide) _ _ _ _ hread hsize [0] hrun rfl⟩

def Preempted (s : System) : Event → System → Prop
  | .read size, t => Step s (.read size) t
  | .write data, t => Step s (.write data) t
  | .proceed i, t => (∃ b, i ∈ awake (waits s) b) ∧ callStep s i = some t

section LostWakeups
variable {n size : ℕ} {buffer : ℕ → UInt8} {data : List UInt8}

theorem preempted_of_callStep (hc : s.calls[i]? = some c)
    (hp : c.pc ≠ .returned) (hq : i ∉ (waits s).queue c.side) (hs : callStep s i = some t) :
    Preempted s (.proceed i) t :=
  ⟨⟨c.side, mem_awake.mpr ⟨mem_pendingOn.mpr ⟨c, hc, rfl, hp⟩, hq⟩⟩, hs⟩

theorem Preempted.step (h : Preempted s e t) : Step s e t := by
  cases e with
  | read size => exact h
  | write data => exact h
  | proceed i => exact h.2

theorem fifo_of_preempted (hn : 1 ≤ n) (hw : n < 2 ^ 32) {events : List Event}
    (h : Reach Preempted (initial n buffer) events s) : Fifo n s :=
  h.invariant (fun _ s => Fifo n s) (Fifo.initial hn hw buffer)
    fun _ _ _ _ _ hi hs => hi.step hs.step

/-- The reader has seen the empty pipe and is about to sleep; meanwhile the writer has stored `k`
bytes. -/
structure Overtaken (size : ℕ) (data : List UInt8) (k : ℕ) (s : System) : Prop where
  calls : s.calls = [.reader size [] .testing, .writer data k .copying]
  readers : s.pipe.waitQueueReaders = []
  writers : s.pipe.waitQueueWriters = []
  unread : pipeUnread s.pipe = k

theorem reach_overtaken_zero (buffer : ℕ → UInt8) (size : ℕ) (hdata : 0 < data.length) :
    ∃ events s, Reach Preempted (initial n buffer) events s ∧ Overtaken size data 0 s := by
  let reader (pc : Point) : System := ⟨createPipe n buffer, [.reader size [] pc], []⟩
  have hread : Preempted (initial n buffer) (.read size) (reader .copying) := rfl
  have hcopy : Preempted (reader .copying) (.proceed 0) (reader .waking) :=
    preempted_of_callStep rfl Point.noConfusion List.not_mem_nil rfl
  have hwake : Preempted (reader .waking) (.proceed 0) (reader .testing) :=
    preempted_of_callStep rfl Point.noConfusion List.not_mem_nil rfl
  have hwrite : Preempted (reader .testing) (.write data)
      ⟨createPipe n buffer, [.reader size [] .testing, .writer data 0 .copying], []⟩ := by
    simp [Preempted, Step, step, reader, writePipe, createPipe, hdata.ne']
  exact ⟨_, _, (((Reach.start.next hread).next hcopy).next hwake).next hwrite, rfl, rfl, rfl, rfl⟩

theorem reach_overtaken (buffer : ℕ → UInt8) (size : ℕ) (hn : 1 ≤ n) (hw : n < 2 ^ 32)
    (hdata : n ≤ data.length) (k : ℕ) (hk : k < n) :
    ∃ events s, Reach Preempted (initial n buffer) events s ∧ Overtaken size data k s := by
  induction k with
  | zero => exact reach_overtaken_zero buffer size (by omega)
  | succ k ih =>
    obtain ⟨events, s, hreach, hs⟩ := ih (by omega)
    have hc : s.calls[1]? = some (.writer data k .copying) := by
      rw [hs.calls]
      rfl
    have hawake : 1 ∉ (waits s).queue false := by
      change 1 ∉ s.pipe.waitQueueWriters
      rw [hs.writers]
      exact List.not_mem_nil
    have hp := (fifo_of_preempted hn hw hreach).pointers
    have hsum := unread_add_available hp
    have hunread := hs.unread
    have havail : 0 < pipeAvailable s.pipe := by omega
    have hstep := callStep_served hc rfl ⟨havail, by omega⟩
    refine ⟨_, _, hreach.next (preempted_of_callStep hc Point.noConfusion hawake hstep), ?_,
      hs.readers, hs.writers, ?_⟩
    · rw [Call.transfer, acceptByte, hs.calls]
      rfl
    · rw [← hs.unread]
      exact incrementWrite_unread ⟨hp.size, hp.word, hp.read, hp.write⟩ havail

theorem Overtaken.sleep (h : Overtaken size data (n - 1) s) (hf : Fifo n s)
    (hlt : n - 1 < data.length) : ∃ events t, Reach Preempted s events t ∧
      t.calls = [.reader size [] .sleeping, .writer data (n - 1) .sleeping] ∧
      t.pipe = { s.pipe with waitQueueReaders := [0], waitQueueWriters := [1] } := by
  obtain ⟨⟨buffer, w, r, m, readers, writers, dead⟩, calls, log⟩ := s
  obtain ⟨hcalls, hreaders, hwriters, hunread⟩ := h
  dsimp only at hcalls hreaders hwriters
  subst hcalls hreaders hwriters
  let state (reader writer : Point) (readers writers : List ℕ) : System :=
    ⟨⟨buffer, w, r, m, readers, writers, dead⟩,
      [.reader size [] reader, .writer data (n - 1) writer], log⟩
  have hcopy : Preempted (state .testing .copying [] []) (.proceed 1)
      (state .testing .waking [] []) := by
    have hsum := unread_add_available hf.pointers
    refine preempted_of_callStep rfl Point.noConfusion List.not_mem_nil ?_
    refine callStep_unserved (c := .writer data (n - 1) .copying) rfl rfl fun hserved => ?_
    have havail := hserved.1
    dsimp only [state] at havail hsum hunread
    omega
  have hwake : Preempted (state .testing .waking [] []) (.proceed 1)
      (state .testing .testing [] []) :=
    preempted_of_callStep rfl Point.noConfusion List.not_mem_nil rfl
  have hsleep : Preempted (state .testing .testing [] []) (.proceed 1)
      (state .testing .sleeping [] [1]) :=
    preempted_of_callStep rfl Point.noConfusion List.not_mem_nil (if_pos hlt)
  have hlost : Preempted (state .testing .sleeping [] [1]) (.proceed 0)
      (state .sleeping .sleeping [0] [1]) :=
    preempted_of_callStep rfl Point.noConfusion List.not_mem_nil rfl
  exact ⟨_, _, (((Reach.start.next hcopy).next hwake).next hsleep).next hlost, rfl, rfl⟩

end LostWakeups

/-- A reader that is preempted between its test of the pipe and its sleep can lose the wake-up,
whatever the size of the buffer: then reader and writer sleep for good, the reader on a full
pipe. -/
theorem preempted_pipe_calls_deadlock {n : ℕ} (hn : 1 ≤ n) (hw : n < 2 ^ 32) (buffer : ℕ → UInt8)
    (size : ℕ) {data : List UInt8} (hdata : n ≤ data.length) :
    ∃ events s, Reach Preempted (initial n buffer) events s ∧
      s.calls = [.reader size [] .sleeping, .writer data (n - 1) .sleeping] ∧
      pipeUnread s.pipe = n - 1 ∧ ¬ ∃ k t, Preempted s (.proceed k) t := by
  obtain ⟨events, s, hreach, hs⟩ := reach_overtaken buffer size hn hw hdata (n - 1) (by omega)
  obtain ⟨events', t, hrun, hcalls, hpipe⟩ :=
    hs.sleep (fifo_of_preempted hn hw hreach) (by omega)
  refine ⟨events ++ events', t, hreach.trans hrun, hcalls, ?_, ?_⟩
  · rw [hpipe]
    exact hs.unread
  · rintro ⟨k, u, ⟨b, hk⟩, -⟩
    obtain ⟨hpending, hqueue⟩ := mem_awake.mp hk
    obtain ⟨c, hc, rfl, -⟩ := mem_pendingOn.mp hpending
    rw [hcalls] at hc
    -- either call is in its queue, and there is no third one
    rcases k with _ | _ | k <;> cases hc <;> exact hqueue (by simp [waits, hpipe, Call.side])

theorem preempted_pipe_calls_deadlock_full : ∃ events s,
    Reach Preempted (initial 128 fun _ => 0) events s ∧
      s.calls = [.reader 1 [] .sleeping, .writer (List.replicate 128 7) 127 .sleeping] ∧
      pipeUnread s.pipe = 127 ∧ ¬ ∃ k t, Preempted s (.proceed k) t :=
  preempted_pipe_calls_deadlock (by decide) (by decide) _ 1 (by simp)

end Bingos.Pipe
