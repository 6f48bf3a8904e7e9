import Serverlessd.Lib.Machine

namespace Serverlessd

def asSecs (d : Nat) : Nat := d / 1000000000

def taskLimit : Nat := 100 * 1000000

def secondsLimit : Nat := 10

inductive MonitorPhase
  | waiting
  | window (start : Nat)
  | left
  deriving DecidableEq

structure MonitoredWorker where
  elapsed : Nat := 0
  phase : MonitorPhase := .waiting
  deriving DecidableEq

namespace MonitoredWorker

def InLoop (mw : MonitoredWorker) : Prop := mw.phase ≠ .left

instance (mw : MonitoredWorker) : Decidable mw.InLoop :=
  inferInstanceAs (Decidable (mw.phase ≠ .left))

def InWindow (mw : MonitoredWorker) : Prop := ∃ start, mw.phase = .window start

def recv (mw : MonitoredWorker) (now : Nat) : MonitoredWorker :=
  match mw.phase with
  | .waiting =>
    if secondsLimit < asSecs mw.elapsed then { mw with phase := .left }
    else { mw with phase := .window now }
  | .window start => { elapsed := mw.elapsed + (now - start), phase := .waiting }
  | .left => mw

def sleep (mw : MonitoredWorker) (now : Nat) : Option MonitoredWorker :=
  match mw.phase with
  | .window start =>
    if start + taskLimit ≤ now then some { mw with phase := .left } else none
  | _ => none

end MonitoredWorker

/-- The monitor task together with its tick channel.  `received` and `lost`
count the ticks that left the channel and those that did not get into it. -/
structure Watch where
  now : Nat := 0
  pending : Nat := 0
  monitor : MonitoredWorker := {}
  received : Nat := 0
  lost : Nat := 0
  deriving DecidableEq

namespace Watch

def hasRoom (capacity : Option Nat) (w : Watch) : Bool := capacity.all (w.pending < ·)

def tick (capacity : Option Nat) (w : Watch) : Watch :=
  if w.hasRoom capacity then { w with pending := w.pending + 1 }
  else { w with lost := w.lost + 1 }

def ticks (capacity : Option Nat) : Nat → Watch → Watch
  | 0, w => w
  | n + 1, w => ticks capacity n (w.tick capacity)

def recv (w : Watch) : Option Watch :=
  if w.monitor.phase = .left ∨ w.pending = 0 then none
  else some { w with
    pending := w.pending - 1, monitor := w.monitor.recv w.now, received := w.received + 1 }

def sleep (w : Watch) : Option Watch :=
  if 0 < w.pending then none
  else (w.monitor.sleep w.now).map fun mw => { w with monitor := mw }

def advance (d : Nat) (w : Watch) : Watch := { w with now := w.now + d }

end Watch

/-- A worker that ticks strictly in pairs: `task` is the time of the start tick
whose end tick it has not emitted yet. -/
structure PairedWorker where
  watch : Watch := {}
  task : Option Nat := none
  deriving DecidableEq

namespace PairedWorker

inductive Act
  | start
  | finish
  | recv
  | sleep
  | advance (d : Nat)
  deriving DecidableEq

def Act.isTick : Act → Bool
  | .start | .finish => true
  | _ => false

def tickCapacity : Nat := 1

def step (s : PairedWorker) : Act → Option PairedWorker
  | .start =>
    match s.task with
    | none => some { watch := s.watch.tick (some tickCapacity), task := some s.watch.now }
    | some _ => none
  | .finish =>
    match s.task with
    | none => none
    | some _ => some { watch := s.watch.tick (some tickCapacity), task := none }
  | .recv => s.watch.recv.map fun w => { s with watch := w }
  | .sleep => s.watch.sleep.map fun w => { s with watch := w }
  | .advance d => some { s with watch := s.watch.advance d }

def machine : Machine PairedWorker Act := ⟨{}, step⟩

end PairedWorker

end Serverlessd
