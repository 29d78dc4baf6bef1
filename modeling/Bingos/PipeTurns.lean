import Bingos.PipeModel
import Bingos.TwoSidedWaits

set_option autoImplicit false

/-! Turns of pipe calls. System calls run with interrupts off, so that a call keeps the processor
until it sleeps or returns. Some other process is always ready (`init` spins), so that `sleep_on`
returns only when `wakeup_from` has taken the call off its queue. -/
namespace Bingos.Pipe
open MachineWords StepRuns TwoSidedWaits

def Call.pc : Call → Point
  | .reader _ _ pc => pc
  | .writer _ _ pc => pc

def Call.side : Call → Bool
  | .reader _ _ _ => true
  | .writer _ _ _ => false

def Call.request : Call → Event
  | .reader size _ _ => .read size
  | .writer data _ _ => .write data

def pendingOn (s : System) (b : Bool) : Finset ℕ :=
  (Finset.range s.calls.length).filter fun i =>
    (s.calls[i]?).any fun c => c.side = b ∧ c.pc ≠ .returned

/-- The calls that have not returned, and those of them that sleep. -/
def waits (s : System) : Waits ℕ :=
  ⟨pendingOn s, fun b => if b then s.pipe.waitQueueReaders else s.pipe.waitQueueWriters⟩

def Rests (s : System) (i : ℕ) : Prop :=
  ∃ c, s.calls[i]? = some c ∧ (c.pc = .sleeping ∨ c.pc = .returned)

inductive Turn (i : ℕ) : System → System → Prop where
  | last {s t : System} (h : callStep s i = some t) (hr : Rests t i) : Turn i s t
  | more {s u t : System} (h : callStep s i = some u) (hr : ¬ Rests u i) (rest : Turn i u t) :
      Turn i s t

def Scheduled (s : System) : Event → System → Prop
  | .read size, t => Step s (.read size) t
  | .write data, t => Step s (.write data) t
  | .proceed i, t => (∃ b, i ∈ awake (waits s) b) ∧ Turn i s t

theorem mem_pendingOn {s : System} {b : Bool} {i : ℕ} :
    i ∈ pendingOn s b ↔ ∃ c, s.calls[i]? = some c ∧ c.side = b ∧ c.pc ≠ .returned := by
  rw [pendingOn, Finset.mem_filter, Finset.mem_range]
  constructor
  · rintro ⟨-, h⟩
    cases hc : s.calls[i]? with
    | none => simp [hc] at h
    | some c => exact ⟨c, rfl, by simpa [hc] using h⟩
  · rintro ⟨c, hc, h⟩
    exact ⟨(List.getElem?_eq_some_iff.mp hc).choose, by simpa [hc] using h⟩

def Call.at (pc : Point) : Call → Call
  | .reader size got _ => .reader size got pc
  | .writer data written _ => .writer data written pc

/-- The call may not return yet: nothing is read, or not all is written. -/
def Call.Unfinished : Call → Prop
  | .reader _ got _ => got.length = 0
  | .writer data written _ => written < data.length

/-- Between turns a pending call is at the head of its loop or asleep in it, and has work to do. -/
def Call.Settled (c : Call) : Prop :=
  c.pc = .returned ∨ (c.pc = .copying ∨ c.pc = .sleeping) ∧ c.Unfinished

def Call.done : Call → ℕ
  | .reader _ got _ => got.length
  | .writer _ written _ => written

def Call.left : Call → ℕ
  | .reader size got _ => size - got.length
  | .writer data written _ => data.length - written

def Call.Served (p : PipeDevice) : Call → Prop
  | .reader size got _ => 0 < pipeUnread p ∧ got.length < size
  | .writer data written _ => 0 < pipeAvailable p ∧ written < data.length

def Call.transfer (s : System) (i : ℕ) : Call → System
  | .reader size got _ => deliverByte s i size got
  | .writer data written _ => acceptByte s i data written (data.getD written 0)

def setQueue (s : System) (b : Bool) (queue : List ℕ) : System :=
  if b then { s with pipe := { s.pipe with waitQueueReaders := queue } }
  else { s with pipe := { s.pipe with waitQueueWriters := queue } }

section Phases
variable {i : ℕ} {s : System} {c : Call}

@[simp] theorem Call.at_pc (c : Call) (pc : Point) : (c.at pc).pc = pc := by cases c <;> rfl

@[simp] theorem Call.at_request (c : Call) (pc : Point) : (c.at pc).request = c.request := by
  cases c <;> rfl

@[simp] theorem Call.at_done (c : Call) (pc : Point) : (c.at pc).done = c.done := by
  cases c <;> rfl

@[simp] theorem Call.at_side (c : Call) (pc : Point) : (c.at pc).side = c.side := by
  cases c <;> rfl

theorem Call.at_at (c : Call) (pc pc' : Point) : (c.at pc).at pc' = c.at pc' := by cases c <;> rfl

theorem Call.at_unfinished (c : Call) (pc : Point) : (c.at pc).Unfinished ↔ c.Unfinished := by
  cases c <;> rfl

theorem Call.at_served (c : Call) (pc : Point) (p : PipeDevice) :
    (c.at pc).Served p ↔ c.Served p := by
  cases c <;> rfl

theorem side_of_request {c d : Call} (h : c.request = d.request) : c.side = d.side := by
  cases c <;> cases d <;> first | rfl | cases h

theorem setQueue_fields (b : Bool) (queue : List ℕ) :
    (setQueue s b queue).calls = s.calls ∧ (setQueue s b queue).log = s.log := by
  cases b <;> exact ⟨rfl, rfl⟩

theorem exists_queues (s : System) (b : Bool) (queue : List ℕ) :
    ∃ readers writers, setQueue s b queue = { s with pipe :=
      { s.pipe with waitQueueReaders := readers, waitQueueWriters := writers } } := by
  cases b with
  | true => exact ⟨queue, s.pipe.waitQueueWriters, rfl⟩
  | false => exact ⟨s.pipe.waitQueueReaders, queue, rfl⟩

theorem waits_setQueue (b : Bool) (queue : List ℕ) : waits (setQueue s b queue) =
    { waits s with queue := Function.update (waits s).queue b queue } := by
  refine Waits.ext (by cases b <;> rfl) (funext fun d => ?_)
  cases b <;> cases d <;> rfl

theorem get_set {calls : List Call} {c d : Call} (hc : calls[i]? = some c) :
    (calls.set i d)[i]? = some d :=
  List.getElem?_set_self (List.getElem?_eq_some_iff.mp hc).choose

theorem waits_setCall (hc : s.calls[i]? = some c) (hp : c.pc ≠ .returned) {d : Call}
    (hside : d.side = c.side) : waits (setCall s i d) =
      if d.pc = .returned then leave (waits s) c.side i else waits s := by
  have hself : ∀ b, i ∈ pendingOn (setCall s i d) b ↔ c.side = b ∧ d.pc ≠ .returned := by
    intro b
    rw [mem_pendingOn, setCall, get_set hc]
    simp [hside]
  have hold : ∀ b, i ∈ pendingOn s b ↔ c.side = b := by
    intro b
    rw [mem_pendingOn, hc]
    simp [hp]
  have hother : ∀ b j, j ≠ i → (j ∈ pendingOn (setCall s i d) b ↔ j ∈ pendingOn s b) := by
    intro b j hj
    rw [mem_pendingOn, mem_pendingOn, setCall, List.getElem?_set_ne hj.symm]
  split_ifs with hr
  · refine Waits.ext (funext fun b => Finset.ext fun j => ?_) rfl
    rw [leave_pending]
    by_cases hj : j = i
    · subst hj
      refine (hself b).trans ⟨fun h => absurd hr h.2, fun h => ?_⟩
      split_ifs at h with hb
      · exact absurd h (Finset.notMem_erase j _)
      · exact absurd ((hold b).mp h).symm hb
    · refine (hother b j hj).trans ?_
      split_ifs with hb
      · rw [Finset.mem_erase, and_iff_right hj, hb]
        rfl
      · rfl
  · refine Waits.ext (funext fun b => Finset.ext fun j => ?_) rfl
    by_cases hj : j = i
    · subst hj
      exact (hself b).trans ((and_iff_left hr).trans (hold b).symm)
    · exact hother b j hj

theorem getElem?_eq_getD {data : List UInt8} {k : ℕ} (h : k < data.length) :
    data[k]? = some (data.getD k 0) := by
  rw [List.getD_eq_getElem _ _ h]
  exact List.getElem?_eq_getElem h

/-! What a step of a call is, at each point of its loop. -/

section CallStep

variable (hc : s.calls[i]? = some c)
include hc

theorem callStep_served (hpc : c.pc = .copying)
    (h : c.Served s.pipe) : callStep s i = some (c.transfer s i) := by
  cases c <;> obtain rfl := hpc <;> rw [callStep, hc]
  case reader => exact if_pos h
  case writer data written =>
    simp only [writeStep, getElem?_eq_getD h.2, if_pos h.1]
    rfl

theorem callStep_unserved (hpc : c.pc = .copying)
    (h : ¬ c.Served s.pipe) : callStep s i = some (setCall s i (c.at .waking)) := by
  cases c <;> obtain rfl := hpc <;> rw [callStep, hc]
  case reader => exact if_neg h
  case writer data written =>
    cases hb : data[written]? with
    | none => simp only [writeStep, hb, Call.at]
    | some byte =>
      have hlt := (List.getElem?_eq_some_iff.mp hb).choose
      simp only [writeStep, hb, if_neg fun havail => h ⟨havail, hlt⟩, Call.at]

theorem callStep_waking (hpc : c.pc = .waking) :
    callStep s i = some
      (setCall (setQueue s (!c.side) ((waits s).queue (!c.side)).dropLast) i (c.at .testing)) := by
  cases c <;> obtain rfl := hpc <;> rw [callStep, hc] <;> rfl

theorem callStep_unfinished (hpc : c.pc = .testing) (h : c.Unfinished) : callStep s i = some
      (setCall (setQueue s c.side (i :: (waits s).queue c.side)) i (c.at .sleeping)) := by
  cases c <;> obtain rfl := hpc <;> rw [callStep, hc] <;> exact if_pos h

theorem callStep_finished (hpc : c.pc = .testing)
    (h : ¬ c.Unfinished) : callStep s i = some (setCall s i (c.at .returned)) := by
  cases c <;> obtain rfl := hpc <;> rw [callStep, hc] <;> exact if_neg h

theorem callStep_sleeping (hpc : c.pc = .sleeping) :
    callStep s i = some (setCall s i (c.at .copying)) := by
  cases c <;> obtain rfl := hpc <;> rw [callStep, hc] <;> rfl

end CallStep

/-- A step transfers a byte, or it moves the call on and touches the wait queues only. -/
theorem callStep_cases {t : System} (h : callStep s i = some t) :
    ∃ c, s.calls[i]? = some c ∧ c.pc ≠ .returned ∧
      (c.Served s.pipe ∧ t = c.transfer s i ∨
        ∃ pc readers writers, (pc = .returned → ¬ c.Unfinished) ∧
          t = setCall { s with pipe :=
            { s.pipe with waitQueueReaders := readers, waitQueueWriters := writers } }
            i (c.at pc)) := by
  obtain ⟨c, hc⟩ : ∃ c, s.calls[i]? = some c := by
    cases hc : s.calls[i]? with
    | none => simp [callStep, hc] at h
    | some c => exact ⟨c, rfl⟩
  have hstep : ∀ {u}, callStep s i = some u → t = u := fun hu => Option.some.inj (h.symm.trans hu)
  refine ⟨c, hc, ?_⟩
  cases hpc : c.pc with
  | copying =>
    refine ⟨Point.noConfusion, ?_⟩
    by_cases hserved : c.Served s.pipe
    · exact Or.inl ⟨hserved, hstep (callStep_served hc hpc hserved)⟩
    · exact Or.inr ⟨.waking, _, _, Point.noConfusion,
        hstep (callStep_unserved hc hpc hserved)⟩
  | waking =>
    obtain ⟨readers, writers, hqueues⟩ :=
      exists_queues s (!c.side) ((waits s).queue (!c.side)).dropLast
    have hmoved := hstep (callStep_waking hc hpc)
    rw [hqueues] at hmoved
    exact ⟨Point.noConfusion, Or.inr ⟨.testing, readers, writers, Point.noConfusion, hmoved⟩⟩
  | testing =>
    refine ⟨Point.noConfusion, Or.inr ?_⟩
    by_cases hf : c.Unfinished
    · obtain ⟨readers, writers, hqueues⟩ := exists_queues s c.side (i :: (waits s).queue c.side)
      have hmoved := hstep (callStep_unfinished hc hpc hf)
      rw [hqueues] at hmoved
      exact ⟨.sleeping, readers, writers, Point.noConfusion, hmoved⟩
    · exact ⟨.returned, _, _, fun _ => hf, hstep (callStep_finished hc hpc hf)⟩
  | sleeping =>
    exact ⟨Point.noConfusion, Or.inr ⟨.copying, _, _, Point.noConfusion,
      hstep (callStep_sleeping hc hpc)⟩⟩
  | returned => cases c <;> obtain rfl := hpc <;> rw [callStep, hc] at h <;> cases h

theorem exists_transferred (hc : s.calls[i]? = some c) (hp : c.pc ≠ .returned)
    (h : c.Served s.pipe) : ∃ d, (c.transfer s i).calls = s.calls.set i d ∧
      d.request = c.request ∧ d.pc = .copying ∧ d.done = c.done + 1 ∧ d.left + 1 = c.left ∧
      waits (c.transfer s i) = waits s ∧ ∃ x, (c.transfer s i).log = s.log ++ [x] := by
  have hwaits : ∀ d : Call, d.side = c.side → d.pc = .copying → waits (setCall s i d) = waits s :=
    fun d hside hd => (waits_setCall hc hp hside).trans (if_neg (by simp [hd]))
  cases c with
  | reader size got pc =>
    refine ⟨.reader size (got ++ _) .copying, rfl, rfl, rfl, List.length_append, ?_,
      hwaits _ rfl rfl, _, rfl⟩
    have hlt := h.2
    rw [Call.left, Call.left, List.length_append, List.length_singleton]
    omega
  | writer data written pc =>
    refine ⟨.writer data (written + 1) .copying, rfl, rfl, rfl, rfl, ?_, hwaits _ rfl rfl, _, rfl⟩
    have hlt := h.2
    rw [Call.left, Call.left]
    omega

end Phases

/-- What a turn does: it leads from call `c` to `c'`, and is a move of the two sides. -/
structure Outcome (i : ℕ) (c c' : Call) (s t : System) : Prop where
  calls : t.calls = s.calls.set i c'
  request : c'.request = c.request
  settled : c'.Settled
  moves : c'.pc = .returned ∧ waits t = leave (wake (waits s) (!c.side)) c.side i ∨
    c'.pc = .sleeping ∧ waits t = rest (wake (waits s) (!c.side)) c.side i
  log : ∃ moved, t.log = s.log ++ moved ∧ c'.done = c.done + moved.length

section Turns
variable {i : ℕ} {s t u : System} {c c' d : Call}

theorem rests_iff (hc : s.calls[i]? = some c) :
    Rests s i ↔ c.pc = .sleeping ∨ c.pc = .returned := by
  constructor
  · rintro ⟨d, hd, h⟩
    rw [hc] at hd
    rwa [Option.some.inj hd]
  · exact fun h => ⟨c, hc, h⟩

theorem Turn.unique {t' : System} (h : Turn i s t) (h' : Turn i s t') : t = t' := by
  induction h with
  | last h hr =>
    cases h' with
    | last h' _ => exact Option.some.inj (h.symm.trans h')
    | more h' hr' _ => exact absurd (Option.some.inj (h.symm.trans h') ▸ hr) hr'
  | more h hr _ ih =>
    cases h' with
    | last h' hr' => exact absurd (Option.some.inj (h'.symm.trans h) ▸ hr') hr
    | more h' _ rest => exact ih (Option.some.inj (h'.symm.trans h) ▸ rest)

theorem Turn.of_step (hs : callStep s i = some u) (hd : u.calls[i]? = some d)
    (hp : ¬ (d.pc = .sleeping ∨ d.pc = .returned)) (h : Turn i u t) : Turn i s t :=
  .more hs (fun hr => hp ((rests_iff hd).mp hr)) h

theorem Outcome.of_setCall {pc : Point} (hc : s.calls[i]? = some c) (hp : c.pc ≠ .returned)
    (hpc : pc ≠ .returned) (h : Outcome i (c.at pc) c' (setCall s i (c.at pc)) t) :
    Outcome i c c' s t := by
  obtain ⟨hcalls, hreq, hset, hmoves, hlog⟩ := h
  rw [c.at_side, waits_setCall hc hp (c.at_side pc), c.at_pc, if_neg hpc] at hmoves
  rw [c.at_done] at hlog
  exact ⟨hcalls.trans (List.set_set ..), hreq.trans (c.at_request pc), hset, hmoves, hlog⟩

theorem exists_outcome_waking (hc : s.calls[i]? = some c) (hpc : c.pc = .waking) :
    ∃ t c', Turn i s t ∧ Outcome i c c' s t := by
  let v := setQueue s (!c.side) ((waits s).queue (!c.side)).dropLast
  let u := setCall v i (c.at .testing)
  have hsame : v.calls = s.calls := (setQueue_fields ..).1
  have hv : v.calls[i]? = some c := hsame ▸ hc
  have hu : u.calls[i]? = some (c.at .testing) := get_set hv
  have hcalls : ∀ d, u.calls.set i d = s.calls.set i d := fun d =>
    (List.set_set ..).trans (congrArg (·.set i d) hsame)
  have hlog : u.log = s.log := (setQueue_fields ..).2
  have hwaits : waits u = wake (waits s) (!c.side) := by
    rw [waits_setCall hv (by simp [hpc]) (c.at_side _), c.at_pc, if_neg Point.noConfusion,
      waits_setQueue]
    rfl
  have hturn : ∀ {t}, Turn i u t → Turn i s t :=
    Turn.of_step (callStep_waking hc hpc) hu (by simp)
  by_cases hf : c.Unfinished
  · have hs := callStep_unfinished hu (c.at_pc _) ((c.at_unfinished _).mpr hf)
    rw [c.at_at, c.at_side] at hs
    have hqueued : (setQueue u c.side (i :: (waits u).queue c.side)).calls = u.calls :=
      (setQueue_fields ..).1
    have hw := hqueued.symm ▸ hu
    refine ⟨_, c.at .sleeping, hturn (.last hs ⟨_, get_set hw, Or.inl (c.at_pc _)⟩), ?_,
      c.at_request _, Or.inr ⟨Or.inr (c.at_pc _), (c.at_unfinished _).mpr hf⟩,
      Or.inr ⟨c.at_pc _, ?_⟩, [], ?_, c.at_done _⟩
    · rw [setCall, hqueued, hcalls]
    · rw [waits_setCall hw (by simp) (by simp), c.at_pc, if_neg Point.noConfusion, waits_setQueue,
        hwaits]
      rfl
    · rw [List.append_nil]
      exact (setQueue_fields ..).2.trans hlog
  · have hs := callStep_finished hu (c.at_pc _) (mt (c.at_unfinished _).mp hf)
    rw [c.at_at] at hs
    refine ⟨_, c.at .returned, hturn (.last hs ⟨_, get_set hu, Or.inr (c.at_pc _)⟩), hcalls _,
      c.at_request _, Or.inl (c.at_pc _), Or.inl ⟨c.at_pc _, ?_⟩, [], ?_, c.at_done _⟩
    · rw [waits_setCall hu (by simp) (by simp), c.at_pc, if_pos rfl, hwaits, c.at_side]
    · rw [List.append_nil]
      exact hlog

theorem exists_outcome_copying (hc : s.calls[i]? = some c) (hpc : c.pc = .copying) :
    ∃ t c', Turn i s t ∧ Outcome i c c' s t ∧ (c.Served s.pipe → c.done < c'.done) := by
  have hp : c.pc ≠ .returned := by simp [hpc]
  induction hm : c.left using Nat.strong_induction_on generalizing s c with
  | _ m ih =>
    by_cases hserved : c.Served s.pipe
    · obtain ⟨d, hcalls, hreq, hd, hdone, hleft, hwaits, x, hlog⟩ :=
        exists_transferred hc hp hserved
      have hu : (c.transfer s i).calls[i]? = some d := hcalls ▸ get_set hc
      obtain ⟨t, c', ht, ho, -⟩ := ih _ (by omega) hu hd (by simp [hd]) rfl
      obtain ⟨moved, hmoved, hmore⟩ := ho.log
      have hmoves := ho.moves
      rw [side_of_request hreq, hwaits] at hmoves
      refine ⟨t, c', .of_step (callStep_served hc hpc hserved) hu (by simp [hd]) ht,
        ⟨?_, ho.request.trans hreq, ho.settled, hmoves, x :: moved, ?_, ?_⟩, fun _ => by omega⟩
      · rw [ho.calls, hcalls, List.set_set]
      · rw [hmoved, hlog, List.append_assoc, List.singleton_append]
      · rw [List.length_cons]
        omega
    · have hu : (setCall s i (c.at .waking)).calls[i]? = some (c.at .waking) := get_set hc
      obtain ⟨t, c', ht, ho⟩ := exists_outcome_waking hu (c.at_pc _)
      exact ⟨t, c', .of_step (callStep_unserved hc hpc hserved) hu (by simp) ht,
        ho.of_setCall hc hp Point.noConfusion, fun h => absurd h hserved⟩

theorem exists_outcome (hc : s.calls[i]? = some c) (hset : c.Settled) (hp : c.pc ≠ .returned) :
    ∃ t c', Turn i s t ∧ Outcome i c c' s t ∧ (c.Served s.pipe → c.done < c'.done) := by
  rcases (hset.resolve_left hp).1 with hpc | hpc
  · exact exists_outcome_copying hc hpc
  · have hu : (setCall s i (c.at .copying)).calls[i]? = some (c.at .copying) := get_set hc
    obtain ⟨t, c', ht, ho, hmoves⟩ := exists_outcome_copying hu (c.at_pc _)
    rw [c.at_done, c.at_served] at hmoves
    exact ⟨t, c', .of_step (callStep_sleeping hc hpc) hu (by simp) ht,
      ho.of_setCall hc hp Point.noConfusion, hmoves⟩

theorem Turn.outcome (h : Turn i s t) (hc : s.calls[i]? = some c) (hset : c.Settled)
    (hp : c.pc ≠ .returned) : ∃ c', Outcome i c c' s t ∧ (c.Served s.pipe → c.done < c'.done) := by
  obtain ⟨t', c', ht, ho⟩ := exists_outcome hc hset hp
  exact ⟨c', h.unique ht ▸ ho⟩

end Turns

section Steps
variable {s t : System}

theorem waits_addCall (c : Call) :
    waits { s with calls := s.calls ++ [c] } =
      if c.pc = .returned then waits s else arrive (waits s) c.side s.calls.length := by
  have hpending : ∀ b j, j ∈ pendingOn { s with calls := s.calls ++ [c] } b ↔
      j ∈ pendingOn s b ∨ j = s.calls.length ∧ c.side = b ∧ c.pc ≠ .returned := by
    intro b j
    rw [mem_pendingOn, mem_pendingOn]
    rcases Nat.lt_trichotomy j s.calls.length with hj | hj | hj
    · simp [List.getElem?_append_left hj, Nat.ne_of_lt hj]
    · simp [hj]
    · simp [List.getElem?_eq_none_iff.mpr, hj.le, hj.ne', Nat.succ_le_of_lt hj]
  split_ifs with hr
  · refine Waits.ext (funext fun b => Finset.ext fun j => ?_) rfl
    exact (hpending b j).trans ⟨fun h => h.resolve_right fun h => h.2.2 hr, Or.inl⟩
  · refine Waits.ext (funext fun b => Finset.ext fun j => ?_) rfl
    refine (hpending b j).trans ?_
    rw [arrive_pending]
    split_ifs with hb
    · subst hb
      rw [Finset.mem_insert]
      exact ⟨fun h => h.elim Or.inr fun h => Or.inl h.1,
        fun h => h.elim (fun h => Or.inr ⟨h, rfl, hr⟩) Or.inl⟩
    · exact ⟨fun h => h.resolve_right fun h => hb h.2.1.symm, Or.inl⟩

end Steps

end Bingos.Pipe
