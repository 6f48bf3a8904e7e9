import Serverlessd.Runtime.Pod.Core
import Serverlessd.Runtime.Worker.Task

namespace Serverlessd

/-- Where `pod_task` is.  In `haltWaiting`, it waits for the token sent to `worker`; there
is none when the slot was empty, and the token is then still its own. -/
inductive PodPhase
  | receiving
  | forwarding (worker : Nat) (trigger : WorkerTrigger)
  | halting (rest : List (Option Nat))
  | haltWaiting (worker : Option Nat) (rest : List (Option Nat))
  | ended
  deriving DecidableEq

structure PodTask where
  pod : Pod Nat
  queue : List PodTrigger := []
  phase : PodPhase := .receiving
  tasks : List Worker := []
  deriving DecidableEq

inductive PodReply
  | vacancy (answer : Bool)
  | worker (id : Nat)
  | halted
  deriving DecidableEq

/-- The reply to `serverless_task`, the replies sent or dropped, and (not in the source)
the HTTP events that a worker's queue took. -/
structure PodOut where
  reply : Option PodReply := none
  replies : List (Nat × Option String) := []
  delivered : List (Nat × Nat) := []
  deriving DecidableEq

inductive PodAct
  | recv
  | send
  | token
  | hangup
  | worker (worker : Nat) (a : WorkerAct)

def podCapacity : Nat := 64

namespace PodTask

def start (nWorkers : Nat) : PodTask := { pod := .start nWorkers }

def rxOpen (p : PodTask) : Bool := decide (p.phase ≠ .ended)

/-- The workers of an ended pod are cancelled with its `LocalSet`; their monitors run on. -/
def runs (p : PodTask) : WorkerAct → Bool
  | .push _ => false
  | .cancel => !p.rxOpen
  | .monitorLeave | .monitorSend | .monitorDone => true
  | _ => p.rxOpen

/-- `worker.trigger(trigger).await`; `none` as long as the queue is full, and a dropped
trigger when the worker has ended. -/
def trigger (p : PodTask) (worker : Nat) (trigger : WorkerTrigger) : Option (PodTask × PodOut) :=
  match p.tasks[worker]? with
  | none => none
  | some w =>
    if w.rxOpen then
      (w.step (.push trigger)).map fun next =>
        ({ p with tasks := p.tasks.set worker next.1 },
          { delivered := trigger.replies.map fun r => (r, worker) })
    else some (p, { replies := Worker.dropped trigger.replies })

def recv (p : PodTask) : PodTrigger → Option (PodTask × PodOut)
  | .checkVacancies => some (p, { reply := some (.vacancy p.pod.hasVacancy) })
  | .createWorker task =>
    (p.pod.createWorker p.tasks.length).map fun next =>
      ({ p with pod := next.1, tasks := p.tasks ++ [{ task }] }, { reply := some (.worker next.2) })
  | .toWorker id trigger =>
    match p.pod.getWorker id with
    | some worker => some ({ p with phase := .forwarding worker trigger }, {})
    | none => some (p, { replies := Worker.dropped trigger.replies })
  | .halt =>
    some ({ p with pod := { p.pod with workers := [] }, phase := .halting p.pod.workers }, {})

def finish (p : PodTask) : PodTask × List (Nat × Option String) :=
  ({ p with phase := .ended, queue := [] },
    Worker.dropped (p.queue.flatMap PodTrigger.replies))

def step (p : PodTask) : PodAct → Option (PodTask × PodOut)
  | .recv =>
    match p.phase, p.queue with
    | .receiving, event :: queue => { p with queue }.recv event
    | _, _ => none
  | .send =>
    match p.phase with
    | .forwarding worker trigger => { p with phase := .receiving }.trigger worker trigger
    | .halting [] =>
      let (p, replies) := p.finish
      some (p, { reply := some .halted, replies })
    | .halting (some worker :: rest) =>
      { p with phase := .haltWaiting (some worker) rest }.trigger worker (.halt .pod)
    | .halting (none :: rest) => some ({ p with phase := .haltWaiting none rest }, {})
    | _ => none
  | .token =>
    match p.phase with
    | .haltWaiting (some worker) rest =>
      if (p.tasks[worker]?).all fun w => !w.holdsToken .pod then
        some ({ p with phase := .halting rest }, {})
      else none
    | _ => none
  | .hangup =>
    if p.phase = .receiving ∧ p.queue = [] then some ({ p with phase := .ended }, {}) else none
  | .worker worker a =>
    match p.tasks[worker]?, p.runs a with
    | some w, true =>
      (w.step a).map fun next =>
        ({ p with tasks := p.tasks.set worker next.1 }, { replies := next.2.replies })
    | _, _ => none

end PodTask

end Serverlessd
