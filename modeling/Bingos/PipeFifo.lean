import Bingos.PipeTurns
import Bingos.RingBuffers

set_option autoImplicit false

namespace Bingos.Pipe
open MachineWords StepRuns RingBuffers

structure Pointers (n : ℕ) (p : PipeDevice) : Prop where
  size : p.size = n
  word : n < 2 ^ 32
  read : p.readPtr < n
  write : p.writePtr < n

variable {c : Call} {p : PipeDevice} {pc : Point} {s t : System} {i n size written : ℕ}
  {collected data : List UInt8}

theorem unread_eq (h : Pointers n p) :
    pipeUnread p = (p.writePtr + n - p.readPtr) % n := by
  obtain ⟨hs, hn, hr, hw⟩ := h
  unfold pipeUnread
  split_ifs with heq hlt
  · rw [heq, Nat.add_sub_cancel_left, Nat.mod_self]
  · rw [sub32_of_le (by omega) (by omega), add32_of_lt (by omega), hs, Nat.mod_eq_of_lt (by omega)]
    omega
  · rw [sub32_of_le (by omega) (by omega), Nat.mod_eq_sub_mod (by omega),
      Nat.mod_eq_of_lt (by omega)]
    omega

theorem unread_lt (h : Pointers n p) : pipeUnread p < n := by
  rw [unread_eq h]
  exact Nat.mod_lt _ (by have := h.read; omega)

theorem read_add_unread (h : Pointers n p) :
    (p.readPtr + pipeUnread p) % n = p.writePtr := by
  have hr := h.read
  have hw := h.write
  rw [unread_eq h, Nat.add_mod_mod, show p.readPtr + (p.writePtr + n - p.readPtr) = p.writePtr + n
    by omega, Nat.add_mod_right, Nat.mod_eq_of_lt hw]

theorem unread_add_available (h : Pointers n p) :
    pipeUnread p + pipeAvailable p = n - 1 := by
  obtain ⟨hs, hn, hr, hw⟩ := h
  unfold pipeUnread pipeAvailable
  split_ifs with heq hlt
  · rw [sub32_of_le (by omega) (by omega), hs, Nat.zero_add]
  · rw [sub32_of_le (a := p.size) (by omega) (by omega), add32_of_lt (by omega),
      sub32_of_le (a := p.readPtr) (by omega) (by omega), sub32_of_le (by omega) (by omega)]
    omega
  · rw [sub32_of_le (a := p.writePtr) (by omega) (by omega),
      sub32_of_le (a := p.size) (by omega) (by omega), add32_of_lt (by omega),
      sub32_of_le (by omega) (by omega)]
    omega

theorem increment_eq {r : ℕ} (hn : n < 2 ^ 32) (hr : r < n) :
    (if add32 r 1 = n then 0 else add32 r 1) = (r + 1) % n := by
  rw [add32_of_lt (by omega)]
  split_ifs with h
  · rw [h, Nat.mod_self]
  · rw [Nat.mod_eq_of_lt (by omega)]

theorem incrementRead_readPtr (h : Pointers n p) :
    (pipeIncrementRead p).readPtr = (p.readPtr + 1) % n := by
  rw [← increment_eq h.word h.read]
  simp only [pipeIncrementRead, h.size]

theorem incrementWrite_writePtr (h : Pointers n p) :
    (pipeIncrementWrite p).writePtr = (p.writePtr + 1) % n := by
  rw [← increment_eq h.word h.write]
  simp only [pipeIncrementWrite, h.size]

theorem incrementRead_pointers (h : Pointers n p) :
    Pointers n (pipeIncrementRead p) := by
  refine ⟨h.size, h.word, ?_, h.write⟩
  rw [incrementRead_readPtr h]
  exact Nat.mod_lt _ (by have := h.read; omega)

theorem incrementWrite_pointers (h : Pointers n p) :
    Pointers n (pipeIncrementWrite p) := by
  refine ⟨h.size, h.word, h.read, ?_⟩
  rw [incrementWrite_writePtr h]
  exact Nat.mod_lt _ (by have := h.read; omega)

theorem incrementRead_unread (h : Pointers n p) (hu : 0 < pipeUnread p) :
    pipeUnread (pipeIncrementRead p) + 1 = pipeUnread p := by
  have hn := unread_lt h
  have h' := incrementRead_pointers h
  have hn' := unread_lt h'
  have hw := read_add_unread h
  have hw' := read_add_unread h'
  rw [incrementRead_readPtr h, Nat.mod_add_mod] at hw'
  have he : (p.readPtr + (1 + pipeUnread (pipeIncrementRead p))) % n =
      (p.readPtr + pipeUnread p) % n := by
    rw [← Nat.add_assoc, hw', hw]
    rfl
  by_cases hfull : 1 + pipeUnread (pipeIncrementRead p) < n
  · have := offset_injective hfull hn he
    omega
  · -- the incremented window cannot wrap all the way: its offset would be zero
    have hz : 1 + pipeUnread (pipeIncrementRead p) = n := by omega
    rw [hz, Nat.add_mod_right] at he
    have := offset_injective (i := 0) (by omega) hn (by simpa using he)
    omega

theorem incrementWrite_unread (h : Pointers n p)
    (ha : 0 < pipeAvailable p) : pipeUnread (pipeIncrementWrite p) = pipeUnread p + 1 := by
  have hsum := unread_add_available h
  have h' := incrementWrite_pointers h
  have hn' := unread_lt h'
  have hw := read_add_unread h
  have hw' := read_add_unread h'
  rw [incrementWrite_writePtr h, ← hw, Nat.mod_add_mod, Nat.add_assoc] at hw'
  exact offset_injective hn' (by omega) hw'

@[simp] theorem delivered_snoc (log : List Transfer) (i : ℕ) (b : UInt8) :
    delivered (log ++ [.delivered i b]) = delivered log ++ [b] ∧
      delivered (log ++ [.accepted i b]) = delivered log := by
  simp [delivered]

@[simp] theorem accepted_snoc (log : List Transfer) (i : ℕ) (b : UInt8) :
    accepted (log ++ [.delivered i b]) = accepted log ∧
      accepted (log ++ [.accepted i b]) = accepted log ++ [b] := by
  simp [accepted]

theorem deliveredTo_snoc (log : List Transfer) (i j : ℕ) (b : UInt8) :
    deliveredTo j (log ++ [.delivered i b]) =
        (if i = j then deliveredTo j log ++ [b] else deliveredTo j log) ∧
      deliveredTo j (log ++ [.accepted i b]) = deliveredTo j log := by
  unfold deliveredTo
  split_ifs with h <;> simp [h]

theorem acceptedFrom_snoc (log : List Transfer) (i j : ℕ) (b : UInt8) :
    acceptedFrom j (log ++ [.delivered i b]) = acceptedFrom j log ∧
      acceptedFrom j (log ++ [.accepted i b]) =
        (if i = j then acceptedFrom j log ++ [b] else acceptedFrom j log) := by
  unfold acceptedFrom
  split_ifs with h <;> simp [h]

def Call.Matches (i : ℕ) (log : List Transfer) : Call → Prop
  | .reader _ collected _ => deliveredTo i log = collected
  | .writer data written _ => acceptedFrom i log = data.take written ∧ written ≤ data.length

theorem Call.matches_at (c : Call) (pc : Point) (i : ℕ) (log : List Transfer) :
    (c.at pc).Matches i log ↔ c.Matches i log := by
  cases c <;> rfl

def Transfer.call : Transfer → ℕ
  | .delivered i _ => i
  | .accepted i _ => i

/-- The pipe refines a queue: what was accepted and not yet delivered is the
unread window of the buffer. -/
structure Fifo (n : ℕ) (s : System) : Prop where
  pointers : Pointers n s.pipe
  queue : accepted s.log =
    delivered s.log ++ window s.pipe.buffer n s.pipe.readPtr (pipeUnread s.pipe)
  calls : ∀ (i : ℕ) (c : Call), s.calls[i]? = some c → c.Matches i s.log
  known : ∀ t ∈ s.log, t.call < s.calls.length

theorem Fifo.initial (hn : 1 ≤ n) (hw : n < 2 ^ 32) (buffer : ℕ → UInt8) :
    Fifo n (initial n buffer) := by
  refine ⟨⟨rfl, hw, ?_, ?_⟩, rfl, ?_, ?_⟩
  · change 0 < n
    omega
  · change 0 < n
    omega
  · intro i c hc
    simp [Pipe.initial] at hc
  · intro t ht
    simp [Pipe.initial] at ht

theorem Fifo.setCall (h : Fifo n s) (hc : c.Matches i s.log) : Fifo n (setCall s i c) := by
  refine ⟨h.pointers, h.queue, ?_, ?_⟩
  · intro j d hd
    change (s.calls.set i c)[j]? = some d at hd
    by_cases hij : i = j
    · subst hij
      rw [List.getElem?_set_self'] at hd
      obtain ⟨_, _, rfl⟩ := Option.map_eq_some_iff.mp hd
      exact hc
    · rw [List.getElem?_set_ne hij] at hd
      exact h.calls j d hd
  · intro t ht
    simpa [Pipe.setCall] using h.known t ht

theorem Fifo.waitQueues (h : Fifo n s) (readers writers : List ℕ) :
    Fifo n { s with pipe :=
      { s.pipe with waitQueueReaders := readers, waitQueueWriters := writers } } :=
  ⟨⟨h.pointers.size, h.pointers.word, h.pointers.read, h.pointers.write⟩, h.queue, h.calls, h.known⟩

theorem Fifo.fresh (h : Fifo n s) :
    deliveredTo s.calls.length s.log = [] ∧ acceptedFrom s.calls.length s.log = [] := by
  constructor
  · apply List.filterMap_eq_nil_iff.mpr
    intro t ht
    have hk := h.known t ht
    cases t with
    | delivered i b => exact if_neg (Nat.ne_of_lt hk)
    | accepted i b => rfl
  · apply List.filterMap_eq_nil_iff.mpr
    intro t ht
    have hk := h.known t ht
    cases t with
    | delivered i b => rfl
    | accepted i b => exact if_neg (Nat.ne_of_lt hk)

theorem Fifo.addCall (h : Fifo n s)
    (hc : c.Matches s.calls.length s.log) : Fifo n { s with calls := s.calls ++ [c] } := by
  refine ⟨h.pointers, h.queue, ?_, ?_⟩
  · intro j d hd
    change (s.calls ++ [c])[j]? = some d at hd
    rcases Nat.lt_trichotomy j s.calls.length with hj | hj | hj
    · rw [List.getElem?_append_left hj] at hd
      exact h.calls j d hd
    · subst hj
      rw [List.getElem?_concat_length, Option.some.injEq] at hd
      exact hd ▸ hc
    · rw [List.getElem?_eq_none (by simp; omega)] at hd
      cases hd
  · intro t ht
    have hk := h.known t ht
    simp only [List.length_append, List.length_singleton]
    omega

theorem Call.Matches.snoc_of_ne {d : Call} {j : ℕ} {log : List Transfer} (h : d.Matches j log)
    {t : Transfer} (hne : t.call ≠ j) : d.Matches j (log ++ [t]) := by
  cases t with
  | delivered i b =>
    rw [Transfer.call] at hne
    cases d with
    | reader size got pc =>
      rw [Call.Matches, (deliveredTo_snoc _ _ _ _).1, if_neg hne]
      exact h
    | writer data written pc =>
      rw [Call.Matches, (acceptedFrom_snoc _ _ _ _).1]
      exact h
  | accepted i b =>
    rw [Transfer.call] at hne
    cases d with
    | reader size got pc =>
      rw [Call.Matches, (deliveredTo_snoc _ _ _ _).2]
      exact h
    | writer data written pc =>
      rw [Call.Matches, (acceptedFrom_snoc _ _ _ _).2, if_neg hne]
      exact h

/-- A byte that one call transfers: the buffer and this call have to account for it. -/
theorem Fifo.transfer (h : Fifo n s) {t : Transfer} (hcall : t.call < s.calls.length)
    (hmine : c.Matches t.call (s.log ++ [t]))
    (hp : Pointers n p) (hqueue : accepted (s.log ++ [t]) =
      delivered (s.log ++ [t]) ++ window p.buffer n p.readPtr (pipeUnread p)) :
    Fifo n ⟨p, s.calls.set t.call c, s.log ++ [t]⟩ := by
  refine ⟨hp, hqueue, ?_, ?_⟩
  · intro j d hd
    dsimp only at hd ⊢
    by_cases hj : t.call = j
    · subst hj
      rw [List.getElem?_set_self hcall, Option.some.injEq] at hd
      exact hd ▸ hmine
    · rw [List.getElem?_set_ne hj] at hd
      exact (h.calls j d hd).snoc_of_ne hj
  · intro t' ht'
    rw [List.length_set]
    rcases List.mem_append.mp ht' with ht' | ht'
    · exact h.known t' ht'
    · rw [List.mem_singleton.mp ht']
      exact hcall

theorem Fifo.deliverByte (h : Fifo n s) (hc : s.calls[i]? = some (.reader size collected pc))
    (hu : 0 < pipeUnread s.pipe) : Fifo n (deliverByte s i size collected) := by
  have hi : i < s.calls.length := (List.getElem?_eq_some_iff.mp hc).choose
  have hmine : deliveredTo i s.log = collected := h.calls i _ hc
  apply h.transfer (t := .delivered i (s.pipe.buffer s.pipe.readPtr)) hi
  · rw [Call.Matches, Transfer.call, (deliveredTo_snoc _ _ _ _).1, if_pos rfl, hmine]
  · exact incrementRead_pointers h.pointers
  · have hcount := incrementRead_unread h.pointers hu
    have hq := h.queue
    rw [← hcount, window_cons, Nat.mod_eq_of_lt h.pointers.read] at hq
    rw [(accepted_snoc _ _ _).1, (delivered_snoc _ _ _).1, incrementRead_readPtr h.pointers, hq,
      List.append_assoc]
    rfl

theorem Fifo.acceptByte
    {byte : UInt8} (h : Fifo n s) (hc : s.calls[i]? = some (.writer data written pc))
    (hb : data[written]? = some byte) (ha : 0 < pipeAvailable s.pipe) :
    Fifo n (acceptByte s i data written byte) := by
  have hi : i < s.calls.length := (List.getElem?_eq_some_iff.mp hc).choose
  have hmine : acceptedFrom i s.log = data.take written ∧ written ≤ data.length := h.calls i _ hc
  have hp := h.pointers
  have hp' : Pointers n
      { s.pipe with buffer := Function.update s.pipe.buffer s.pipe.writePtr byte } :=
    ⟨hp.size, hp.word, hp.read, hp.write⟩
  apply h.transfer (t := .accepted i byte) hi
  · obtain ⟨hlt, hval⟩ := List.getElem?_eq_some_iff.mp hb
    rw [Call.Matches, Transfer.call, (acceptedFrom_snoc _ _ _ _).2, if_pos rfl, hmine.1, ← hval,
      List.take_succ_eq_append_getElem hlt]
    exact ⟨rfl, hlt⟩
  · exact incrementWrite_pointers hp'
  · have hcount := incrementWrite_unread hp' ha
    have hsum := unread_add_available hp
    have hpush := window_push s.pipe.buffer n s.pipe.readPtr (pipeUnread s.pipe) byte (by omega)
    rw [read_add_unread hp] at hpush
    rw [(accepted_snoc _ _ _).2, (delivered_snoc _ _ _).2, hcount, h.queue, List.append_assoc]
    exact congrArg _ hpush.symm

theorem Fifo.transferByte (h : Fifo n s) (hc : s.calls[i]? = some c) (hserved : c.Served s.pipe) :
    Fifo n (c.transfer s i) := by
  cases c with
  | reader size collected pc => exact h.deliverByte hc hserved.1
  | writer data written pc => exact h.acceptByte hc (getElem?_eq_getD hserved.2) hserved.1



theorem Fifo.step {e : Event} (h : Fifo n s) (hs : Step s e t) :
    Fifo n t := by
  cases e with
  | read size =>
    exact Option.some.inj hs ▸ h.addCall h.fresh.1
  | write data =>
    exact Option.some.inj hs ▸ h.addCall ⟨h.fresh.2, Nat.zero_le _⟩
  | proceed i =>
    obtain ⟨c, hc, -, ⟨hserved, rfl⟩ | ⟨pc, readers, writers, -, rfl⟩⟩ := callStep_cases hs
    · exact h.transferByte hc hserved
    · exact (h.waitQueues readers writers).setCall ((c.matches_at pc i s.log).mpr (h.calls i c hc))

/-- Over every interleaving of any number of readers and writers, nothing is
lost, duplicated, reordered or overwritten. -/
theorem pipe_is_fifo {n : ℕ} (hn : 1 ≤ n) (hw : n < 2 ^ 32) (buffer : ℕ → UInt8)
    {events : List Event} {s : System} (h : Reach Step (initial n buffer) events s) :
    s.pipe.readPtr < n ∧ s.pipe.writePtr < n ∧
      pipeUnread s.pipe + pipeAvailable s.pipe = n - 1 ∧
      (∃ waiting, accepted s.log = delivered s.log ++ waiting ∧
        waiting.length = pipeUnread s.pipe) ∧
      (∀ i size collected pc, s.calls[i]? = some (.reader size collected pc) →
        collected = deliveredTo i s.log) ∧
      (∀ i data written pc, s.calls[i]? = some (.writer data written pc) →
        data.take written = acceptedFrom i s.log) := by
  have hf : Fifo n s := h.invariant (fun _ s => Fifo n s) (Fifo.initial hn hw buffer)
    (fun _ _ _ _ _ hi hs => hi.step hs)
  refine ⟨hf.pointers.read, hf.pointers.write, unread_add_available hf.pointers,
    ⟨_, hf.queue, window_length _ _ _ _⟩, ?_, ?_⟩
  · intro i size collected pc hc
    exact (hf.calls i _ hc).symm
  · intro i data written pc hc
    exact (hf.calls i _ hc).1.symm

/-- A three-byte pipe after two writes and one read, wherever the calls stand. -/
theorem pipe_is_fifo_short : ∃ s,
    Reach Step (initial 3 (fun _ => 0))
      [.write [7, 8], .read 1, .proceed 0, .proceed 0, .proceed 1] s ∧
    pipeUnread s.pipe + pipeAvailable s.pipe = 3 - 1 ∧ delivered s.log = [7] := by
  have hrun : (List.foldlM step (initial 3 (fun _ => 0))
      [.write [7, 8], .read 1, .proceed 0, .proceed 0, .proceed 1]).map (fun s => delivered s.log) =
        some [7] := by decide +kernel
  obtain ⟨s, hs, hlog⟩ := Option.map_eq_some_iff.mp hrun
  have h := Reach.of_foldlM (fun _ _ _ hstep => hstep) hs
  exact ⟨s, h, (pipe_is_fifo (by decide) (by decide) _ h).2.2.1, hlog⟩

end Bingos.Pipe
