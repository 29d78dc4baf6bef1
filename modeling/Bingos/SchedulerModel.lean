import Bingos.MachineWords
import Bingos.StepRuns

set_option autoImplicit false

/-! Processes and the queues they wait in. A process is named by the address
of its control block; queues are listed from the head, so the ready queue is
filled at the front and served from the back. A failed kernel assertion has no
successor state. -/
namespace Bingos.Scheduler
open MachineWords StepRuns

inductive ProcessState where
  | ready
  | runing
  | finished
  | sleep
  deriving DecidableEq, Repr

structure Pcb where
  id : ℕ
  state : ProcessState
  status : ℤ
  endTick : ℕ
  endSubtick : ℕ

/-- `created` holds the control blocks allocated and not yet released. -/
structure Sched where
  current : Option ℕ
  processQueue : List ℕ
  sleepQueue : List ℕ
  finishedQueue : List ℕ
  waitQueues : List (List ℕ)
  pcb : ℕ → Pcb
  nextPid : ℕ
  timerTicks : ℕ
  timerSubticks : ℕ
  created : Finset ℕ

def subticksPerTick : ℕ := 1000

def schedEnqueue (s : Sched) (p : ℕ) : Sched := { s with processQueue := p :: s.processQueue }

def schedEnqueueFinished (s : Sched) (p : ℕ) : Sched :=
  { s with finishedQueue := s.finishedQueue ++ [p] }

def schedAvailable (s : Sched) : Bool := !s.processQueue.isEmpty

def later (b : Pcb) (seconds subseconds : ℕ) : Bool :=
  seconds < b.endTick || (b.endTick == seconds && subseconds < b.endSubtick)

def sleepEnqueue (s : Sched) (p seconds subseconds : ℕ) : Sched :=
  let early := fun q => !later (s.pcb q) seconds subseconds
  { s with
    pcb := Function.update s.pcb p
      { s.pcb p with endTick := seconds, endSubtick := subseconds }
    sleepQueue := s.sleepQueue.takeWhile early ++ p :: s.sleepQueue.dropWhile early }

def relativeTime (s : Sched) (seconds subseconds : ℕ) : ℕ × ℕ :=
  if subticksPerTick < add32 subseconds s.timerSubticks then
    (add32 (add32 s.timerSubticks seconds) 1,
      sub32 (add32 subseconds s.timerSubticks) subticksPerTick)
  else (add32 s.timerTicks seconds, add32 s.timerSubticks subseconds)

def processSleepUntil (s : Sched) (p seconds subseconds : ℕ) : Sched :=
  let t := relativeTime s seconds subseconds
  sleepEnqueue s p t.1 t.2

/-- `ASSERT(_current_process)` fails on an empty ready queue. -/
def switchToNext (s : Sched) : Option Sched :=
  match s.processQueue.getLast? with
  | some p => some { s with current := some p, processQueue := s.processQueue.dropLast }
  | none => none

def contextSwitch (s : Sched) (reschedule : Bool) : Option Sched :=
  match s.current with
  | none => some s
  | some c =>
    if schedAvailable s then switchToNext (if reschedule then schedEnqueue s c else s)
    else some s

def due (b : Pcb) (ticks subticks : ℕ) : Bool :=
  b.endTick < ticks || (b.endTick == ticks && b.endSubtick ≤ subticks)

def wakeupLoop (ticks subticks : ℕ) : List ℕ → Sched → Sched
  | [], s => { s with sleepQueue := [] }
  | p :: rest, s =>
    if due (s.pcb p) ticks subticks then
      wakeupLoop ticks subticks rest
        (schedEnqueue { s with
          pcb := Function.update s.pcb p
            { s.pcb p with endTick := 0, endSubtick := 0, status := 0 }
          sleepQueue := rest } p)
    else { s with sleepQueue := p :: rest }

def processWakeupSleepers (s : Sched) (ticks subticks : ℕ) : Sched :=
  wakeupLoop ticks subticks s.sleepQueue s

def advance (s : Sched) : Sched :=
  if add32 s.timerSubticks 1 = subticksPerTick then
    { s with timerTicks := add32 s.timerTicks 1, timerSubticks := 0 }
  else { s with timerSubticks := add32 s.timerSubticks 1 }

/-- The interrupt wakes the sleepers that are due before it calls `context_switch`. -/
def timerWoken (s : Sched) : Sched :=
  processWakeupSleepers (advance s) (advance s).timerTicks (advance s).timerSubticks

def timerCallback (s : Sched) : Option Sched := contextSwitch (timerWoken s) true

def sleepOn (s : Sched) (queue : ℕ) : Option Sched :=
  match s.current, s.waitQueues[queue]? with
  | some c, some w => contextSwitch { s with waitQueues := s.waitQueues.set queue (c :: w) } false
  | _, _ => none

def wakeupFrom (s : Sched) (queue : ℕ) : Option Sched :=
  match s.waitQueues[queue]? with
  | none => none
  | some w =>
    match w.getLast? with
    | none => some s
    | some p => some (schedEnqueue { s with waitQueues := s.waitQueues.set queue w.dropLast } p)

/-- The control block comes from the kernel heap, which never hands out an
address that is still in use. -/
def processCreate (s : Sched) (p : ℕ) : Option Sched :=
  if p ∈ s.created then none
  else some { s with
    pcb := Function.update s.pcb p ⟨s.nextPid, .ready, 0, 0, 0⟩
    nextPid := add32 s.nextPid 1
    created := insert p s.created }

def sysFork (s : Sched) (child : ℕ) : Option Sched :=
  (processCreate s child).map (fun t => schedEnqueue t child)

def processSpawnTasklet (s : Sched) (child : ℕ) : Option Sched :=
  (processCreate s child).map (fun t => schedEnqueue t child)

def processExit (s : Sched) (ret : ℤ) : Option Sched :=
  match s.current with
  | none => none
  | some c =>
    if (s.pcb c).id = 1 then none
    else switchToNext (schedEnqueueFinished
      { s with pcb := Function.update s.pcb c { s.pcb c with status := ret, state := .finished } } c)

def releaseProcess (s : Sched) (p : ℕ) : Sched := { s with created := s.created.erase p }

def sysWaitpid (s : Sched) (pid : ℤ) : Option Sched :=
  if pid < 0 then some s
  else
    match s.finishedQueue.find? (fun p => (s.pcb p).id = pid.toNat) with
    | some p =>
      let t := { s with finishedQueue :=
        s.finishedQueue.eraseP (fun q => (s.pcb q).id = pid.toNat) }
      some (if (s.pcb p).state = .finished then releaseProcess t p else t)
    | none => contextSwitch s true

theorem processExit_cases {s t : Sched} {ret : ℤ} (h : processExit s ret = some t) :
    ∃ c, s.current = some c ∧ (s.pcb c).id ≠ 1 ∧
      switchToNext (schedEnqueueFinished
        { s with pcb := Function.update s.pcb c { s.pcb c with status := ret, state := .finished } }
        c) = some t := by
  unfold processExit at h
  cases hc : s.current with
  | none =>
    rw [hc] at h
    cases h
  | some c =>
    rw [hc] at h
    dsimp only at h
    split_ifs at h with hid
    exact ⟨c, rfl, hid, h⟩

theorem sysWaitpid_cases {s t : Sched} {pid : ℤ} (h : sysWaitpid s pid = some t) :
    pid < 0 ∧ t = s ∨
    0 ≤ pid ∧ s.finishedQueue.find? (fun p => (s.pcb p).id = pid.toNat) = none ∧
      contextSwitch s true = some t ∨
    0 ≤ pid ∧ ∃ q, s.finishedQueue.find? (fun p => (s.pcb p).id = pid.toNat) = some q ∧
      ((s.pcb q).state = .finished ∧
          t = releaseProcess
            { s with
              finishedQueue := s.finishedQueue.eraseP (fun p => (s.pcb p).id = pid.toNat) } q ∨
        (s.pcb q).state ≠ .finished ∧
          t = { s with
            finishedQueue := s.finishedQueue.eraseP (fun p => (s.pcb p).id = pid.toNat) }) := by
  unfold sysWaitpid at h
  split_ifs at h with hneg
  · exact Or.inl ⟨hneg, (Option.some.inj h).symm⟩
  · have hpid : 0 ≤ pid := not_lt.mp hneg
    cases hfind : s.finishedQueue.find? (fun p => (s.pcb p).id = pid.toNat) with
    | none =>
      rw [hfind] at h
      exact Or.inr (Or.inl ⟨hpid, rfl, h⟩)
    | some q =>
      rw [hfind] at h
      refine Or.inr (Or.inr ⟨hpid, q, rfl, ?_⟩)
      obtain rfl := Option.some.inj h
      by_cases hfin : (s.pcb q).state = .finished
      · exact Or.inl ⟨hfin, if_pos hfin⟩
      · exact Or.inr ⟨hfin, if_neg hfin⟩

inductive Event where
  | tick
  | sleepUntil (seconds subseconds : ℕ)
  | listCreate
  | sleepOn (queue : ℕ)
  | wakeupFrom (queue : ℕ)
  | fork (child : ℕ)
  | spawnTasklet (child : ℕ)
  | exit (ret : ℤ)
  | waitpid (pid : ℤ)

def step (s : Sched) : Event → Option Sched
  | .tick => timerCallback s
  | .sleepUntil seconds subseconds =>
    match s.current with
    | some c => contextSwitch (processSleepUntil s c seconds subseconds) false
    | none => none
  | .listCreate => some { s with waitQueues := s.waitQueues ++ [[]] }
  | .sleepOn queue => sleepOn s queue
  | .wakeupFrom queue => wakeupFrom s queue
  | .fork child => sysFork s child
  | .spawnTasklet child => processSpawnTasklet s child
  | .exit ret => processExit s ret
  | .waitpid pid => sysWaitpid s pid

def Step (s : Sched) (e : Event) (t : Sched) : Prop := step s e = some t

def processInit (init ticks subticks : ℕ) : Sched :=
  { current := some init, processQueue := [], sleepQueue := [], finishedQueue := [],
    waitQueues := [], pcb := fun _ => ⟨1, .runing, 0, 0, 0⟩, nextPid := 2,
    timerTicks := ticks, timerSubticks := subticks, created := {init} }

def occurrences (s : Sched) (p : ℕ) : ℕ :=
  s.current.toList.count p + s.processQueue.count p + s.sleepQueue.count p +
    (s.waitQueues.map (List.count p)).sum + s.finishedQueue.count p

end Bingos.Scheduler
