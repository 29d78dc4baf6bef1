import Bingos.MachineWords
import Bingos.StepRuns

set_option autoImplicit false

/-! The kernel pipe: a circular byte buffer shared by any number of read and
write calls. A call is a small machine that copies one byte a step, wakes the
other side, and goes to sleep on its own wait queue when it cannot finish. -/
namespace Bingos.Pipe
open MachineWords StepRuns

/-- The cells of `buffer` beyond `size` are never addressed. Wait queues hold
the indices of the sleeping calls, most recently queued first. -/
structure PipeDevice where
  buffer : ℕ → UInt8
  writePtr : ℕ
  readPtr : ℕ
  size : ℕ
  waitQueueReaders : List ℕ
  waitQueueWriters : List ℕ
  dead : Bool

def pipeIncrementRead (p : PipeDevice) : PipeDevice :=
  let r := add32 p.readPtr 1
  { p with readPtr := if r = p.size then 0 else r }

def pipeIncrementWrite (p : PipeDevice) : PipeDevice :=
  let w := add32 p.writePtr 1
  { p with writePtr := if w = p.size then 0 else w }

def pipeAvailable (p : PipeDevice) : ℕ :=
  if p.readPtr = p.writePtr then sub32 p.size 1
  else if p.writePtr < p.readPtr then sub32 (sub32 p.readPtr p.writePtr) 1
  else sub32 (add32 (sub32 p.size p.writePtr) p.readPtr) 1

def pipeUnread (p : PipeDevice) : ℕ :=
  if p.readPtr = p.writePtr then 0
  else if p.writePtr < p.readPtr then add32 (sub32 p.size p.readPtr) p.writePtr
  else sub32 p.writePtr p.readPtr

def createPipe (size : ℕ) (buffer : ℕ → UInt8) : PipeDevice :=
  { buffer, writePtr := 0, readPtr := 0, size, waitQueueReaders := [], waitQueueWriters := [],
    dead := false }

inductive Point where
  | copying
  | waking
  | testing
  | sleeping
  | returned
  deriving DecidableEq, Repr

/-- A reader holds the bytes collected so far, a writer the caller's bytes and
the number already written. -/
inductive Call where
  | reader (size : ℕ) (collected : List UInt8) (pc : Point)
  | writer (data : List UInt8) (written : ℕ) (pc : Point)

inductive Transfer where
  | delivered (call : ℕ) (byte : UInt8)
  | accepted (call : ℕ) (byte : UInt8)

structure System where
  pipe : PipeDevice
  calls : List Call
  log : List Transfer

def readPipe (p : PipeDevice) (size : ℕ) : Call :=
  .reader size [] (if p.dead then .returned else .copying)

def writePipe (p : PipeDevice) (data : List UInt8) : Call :=
  .writer data 0 (if p.dead then .returned else if data.length = 0 then .returned else .copying)

def setCall (s : System) (i : ℕ) (c : Call) : System := { s with calls := s.calls.set i c }

def deliverByte (s : System) (i size : ℕ) (collected : List UInt8) : System :=
  let byte := s.pipe.buffer s.pipe.readPtr
  { pipe := pipeIncrementRead s.pipe
    calls := s.calls.set i (.reader size (collected ++ [byte]) .copying)
    log := s.log ++ [.delivered i byte] }

def acceptByte (s : System) (i : ℕ) (data : List UInt8) (written : ℕ) (byte : UInt8) : System :=
  { pipe := pipeIncrementWrite
      { s.pipe with buffer := Function.update s.pipe.buffer s.pipe.writePtr byte }
    calls := s.calls.set i (.writer data (written + 1) .copying)
    log := s.log ++ [.accepted i byte] }

/-- `sleep_on` queues the call; it returns when the call is woken, and also
when the context switch finds no other process to run. Both are the step out
of `sleeping`, which may be taken at any time. -/
def readStep (s : System) (i size : ℕ) (collected : List UInt8) : Point → Option System
  | .copying =>
    if 0 < pipeUnread s.pipe ∧ collected.length < size then
      some (deliverByte s i size collected)
    else some (setCall s i (.reader size collected .waking))
  | .waking =>
    some (setCall
      { s with pipe := { s.pipe with waitQueueWriters := s.pipe.waitQueueWriters.dropLast } }
      i (.reader size collected .testing))
  | .testing =>
    if collected.length = 0 then
      some (setCall
        { s with pipe := { s.pipe with waitQueueReaders := i :: s.pipe.waitQueueReaders } }
        i (.reader size collected .sleeping))
    else some (setCall s i (.reader size collected .returned))
  | .sleeping => some (setCall s i (.reader size collected .copying))
  | .returned => none

def writeStep (s : System) (i : ℕ) (data : List UInt8) (written : ℕ) : Point → Option System
  | .copying =>
    match data[written]? with
    | some byte =>
      if 0 < pipeAvailable s.pipe then some (acceptByte s i data written byte)
      else some (setCall s i (.writer data written .waking))
    | none => some (setCall s i (.writer data written .waking))
  | .waking =>
    some (setCall
      { s with pipe := { s.pipe with waitQueueReaders := s.pipe.waitQueueReaders.dropLast } }
      i (.writer data written .testing))
  | .testing =>
    if written < data.length then
      some (setCall
        { s with pipe := { s.pipe with waitQueueWriters := i :: s.pipe.waitQueueWriters } }
        i (.writer data written .sleeping))
    else some (setCall s i (.writer data written .returned))
  | .sleeping => some (setCall s i (.writer data written .copying))
  | .returned => none

def callStep (s : System) (i : ℕ) : Option System :=
  match s.calls[i]? with
  | some (.reader size collected pc) => readStep s i size collected pc
  | some (.writer data written pc) => writeStep s i data written pc
  | none => none

inductive Event where
  | read (size : ℕ)
  | write (data : List UInt8)
  | proceed (call : ℕ)

def step (s : System) : Event → Option System
  | .read size => some { s with calls := s.calls ++ [readPipe s.pipe size] }
  | .write data => some { s with calls := s.calls ++ [writePipe s.pipe data] }
  | .proceed i => callStep s i

def Step (s : System) (e : Event) (t : System) : Prop := step s e = some t

def initial (size : ℕ) (buffer : ℕ → UInt8) : System := ⟨createPipe size buffer, [], []⟩

def delivered (log : List Transfer) : List UInt8 :=
  log.filterMap (fun | .delivered _ b => some b | .accepted _ _ => none)

def accepted (log : List Transfer) : List UInt8 :=
  log.filterMap (fun | .accepted _ b => some b | .delivered _ _ => none)

def deliveredTo (call : ℕ) (log : List Transfer) : List UInt8 :=
  log.filterMap (fun | .delivered c b => if c = call then some b else none | .accepted _ _ => none)

def acceptedFrom (call : ℕ) (log : List Transfer) : List UInt8 :=
  log.filterMap (fun | .accepted c b => if c = call then some b else none | .delivered _ _ => none)

end Bingos.Pipe
