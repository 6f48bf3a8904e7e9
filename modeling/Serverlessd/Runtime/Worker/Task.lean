import Serverlessd.Lib.Machine
import Serverlessd.Runtime.Trigger
import Serverlessd.Runtime.Worker.Init
import Serverlessd.Runtime.Worker.State

/-! One worker: `create_cancel_safe_task` with its queue, its isolate and the
end of its monitor that sends to the same queue. -/

namespace Serverlessd

/-- A JavaScript value, as far as `to_rust_string_lossy` shows it. -/
structure Value where
  rustStringLossy : String
  deriving DecidableEq

inductive PromiseState
  | pending
  | fulfilled (value : Value)
  | rejected
  deriving DecidableEq

/-- The promises of an isolate.  A reaction `(promise, ptr)` is the function given to
`.then()` for the replier at `ptr`; a job is such a function in the microtask queue. -/
structure Isolate where
  promises : List PromiseState := []
  reactions : List (Nat × Nat) := []
  jobs : List (Nat × Value) := []
  deriving DecidableEq

namespace Isolate

def newPromise (i : Isolate) : Isolate := { i with promises := i.promises ++ [.pending] }

def fulfil (i : Isolate) (promise : Nat) (value : Value) : Isolate where
  promises := i.promises.set promise (.fulfilled value)
  reactions := i.reactions.filter (·.1 ≠ promise)
  jobs := i.jobs ++ (i.reactions.filter (·.1 = promise)).map fun r => (r.2, value)

def reject (i : Isolate) (promise : Nat) : Isolate :=
  { i with
    promises := i.promises.set promise .rejected
    reactions := i.reactions.filter (·.1 ≠ promise) }

def chain (i : Isolate) (promise ptr : Nat) : Isolate :=
  match i.promises[promise]? with
  | some .pending => { i with reactions := i.reactions ++ [(promise, ptr)] }
  | some (.fulfilled value) => { i with jobs := i.jobs ++ [(ptr, value)] }
  | _ => i

end Isolate

/-- Not in the source: which HTTP event led to which promise, for the replier at
the same index, and whether the function given to `.then()` is still to run or has run. -/
structure Link where
  event : Nat
  promise : Nat
  linked : Bool
  deriving DecidableEq

inductive WorkerPhase
  | starting
  | parked
  | checkpoint (event : WorkerTrigger)
  | calling (reply : Nat)
  | draining
  | polling (future : Nat) (closing : Bool)
  | closing
  | closed
  deriving DecidableEq

inductive MonitorTask
  | watching
  | halting
  | waiting
  | finished
  deriving DecidableEq

structure Worker where
  task : WorkerTask
  queue : List WorkerTrigger := []
  phase : WorkerPhase := .starting
  fetch : Bool := false
  isolate : Isolate := {}
  repliers : Repliers Nat := {}
  links : List Link := []
  futures : List Bool := []
  monitor : MonitorTask := .watching
  terminating : Bool := false
  result : Option WorkerError := none
  deriving DecidableEq

structure WorkerOut where
  ticks : Nat := 0
  replies : List (Nat × Option String) := []
  deriving DecidableEq

inductive Chained
  | ok
  | noFunction
  | notRegistered
  deriving DecidableEq

inductive CallResult
  | threw
  | value
  | promise (promise : Nat) (chained : Chained)
  deriving DecidableEq

inductive WorkerAct
  | push (trigger : WorkerTrigger)
  | unmonitored
  | init (answers : InitAnswers)
  | recv
  | newPromise
  | fulfil (promise : Nat) (value : Value)
  | reject (promise : Nat)
  | callFetch
  | job
  | resume
  | ret (result : CallResult)
  | retTerminated (result : CallResult)
  | terminate
  | poll (future : Nat) (ready : Bool)
  | close
  | cancel
  | monitorLeave
  | monitorSend
  | monitorDone

def workerCapacity : Nat := 64

namespace Worker

def rxOpen (w : Worker) : Bool :=
  match w.phase with
  | .closing | .closed | .polling _ true => false
  | _ => true

def awaiting (w : Worker) : Bool :=
  match w.phase with
  | .starting | .parked | .closing => true
  | _ => false

def inJs (w : Worker) : Bool :=
  match w.phase with
  | .checkpoint _ | .calling _ | .draining | .polling _ _ => true
  | _ => false

def holdsToken (w : Worker) (token : Halter) : Bool :=
  w.queue.contains (.halt token) || decide (w.phase = .checkpoint (.halt token))

def dropped (replies : List Nat) : List (Nat × Option String) := replies.map fun r => (r, none)

def leave (w : Worker) (result : Option WorkerError) : Worker × List (Nat × Option String) :=
  ({ w with phase := .closing, queue := [], result := result },
    dropped (w.queue.flatMap WorkerTrigger.replies))

def dispatch (w : Worker) : WorkerTrigger → Worker × WorkerOut
  | .halt _ =>
    let (w, replies) := w.leave none
    (w, { replies })
  | .http reply =>
    if w.fetch then ({ w with phase := .calling reply }, { ticks := 1 })
    else ({ w with phase := .parked }, { replies := dropped [reply] })

def resumed (w : Worker) : Option (Worker × WorkerOut) :=
  match w.phase with
  | .checkpoint event =>
    some ({ w with repliers := w.repliers.cleanupDeadRepliers }.dispatch event)
  | .draining => some ({ w with phase := .parked }, {})
  | .polling future closing =>
    some ({ w with
      phase := if closing then .closing else .parked
      futures := w.futures.eraseIdx future }, { ticks := 1 })
  | _ => none

/-- The handler was called for the event of `reply` and did not throw: what the
event loop does up to its last microtask checkpoint. -/
def returned (w : Worker) (reply : Nat) : CallResult → Option (Worker × WorkerOut)
  | .threw => none
  | .value => some ({ w with phase := .parked }, { ticks := 1, replies := dropped [reply] })
  | .promise promise chained =>
    if promise < w.isolate.promises.length then
      let (repliers, ptr) := w.repliers.register reply
      let link : Link := ⟨reply, promise, chained = .ok⟩
      let w := { w with repliers, links := w.links ++ [link], phase := .draining }
      match chained with
      | .ok => some ({ w with isolate := w.isolate.chain promise ptr }, { ticks := 1 })
      | .notRegistered => some (w, { ticks := 1 })
      | .noFunction =>
        let (w, replies) := w.leave (some .runtimeError)
        some (w, { ticks := 1, replies })
    else none

def threw (w : Worker) (reply : Nat) : Worker × WorkerOut :=
  let (w, replies) := w.leave (some .timeout)
  (w, { replies := dropped [reply] ++ replies })

def runJob (w : Worker) (ptr : Nat) (value : Value) (jobs : List (Nat × Value)) :
    Worker × WorkerOut :=
  let (repliers, replier) := w.repliers.take ptr
  ({ w with repliers, isolate := { w.isolate with jobs } },
    { ticks := 1, replies := replier.toList.map fun r => (r, some value.rustStringLossy) })

def discardJobs (w : Worker) : Worker :=
  { w with
    isolate := { w.isolate with jobs := [] }
    links := w.links.mapIdx fun ptr link =>
      if ptr ∈ w.isolate.jobs.map Prod.fst then { link with linked := false } else link }

def isPending (w : Worker) (promise : Nat) : Bool :=
  decide (w.isolate.promises[promise]? = some .pending)

/-- One poll of the `future`-th `MonitoredFuture`: a tick on either side, one at
the first line of its body, and one before it settles its promise. -/
def poll (w : Worker) (future : Nat) (ready : Bool) (closing : Bool) :
    Option (Worker × WorkerOut) :=
  match w.futures[future]?, ready with
  | none, _ => none
  | some polled, false =>
    some ({ w with futures := w.futures.set future true }, { ticks := if polled then 2 else 3 })
  | some polled, true =>
    some ({ w with phase := .polling future closing }, { ticks := if polled then 2 else 3 })

/-- The task is dropped at an await point.  Only in `close_state` does it hold what the
isolate and its data slot own, so that the drop of the state answers its repliers. -/
def cancelled (w : Worker) : Worker × WorkerOut :=
  let replies := dropped (w.queue.flatMap WorkerTrigger.replies)
  match w.phase with
  | .closing =>
    let (repliers, pending) := w.repliers.drop
    ({ w with phase := .closed, queue := [], futures := [], repliers },
      { replies := replies ++ pending.map fun r => (r, some "") })
  | _ => ({ w with phase := .closed, queue := [], futures := [] }, { replies })

def step (w : Worker) : WorkerAct → Option (Worker × WorkerOut)
  | .push trigger =>
    if w.rxOpen ∧ w.queue.length < workerCapacity then
      some ({ w with queue := w.queue ++ [trigger] }, {})
    else none
  | .unmonitored =>
    if w.phase = .starting then
      some ({ w with phase := .closed, queue := [] },
        { replies := dropped (w.queue.flatMap WorkerTrigger.replies) })
    else none
  | .init answers =>
    if w.phase = .starting ∧ answers.terminates w.terminating then
      let w := { w with
        futures := List.replicate answers.fetches false
        terminating := w.terminating && answers.terminated.isNone }
      match createTaskInit answers with
      | (.loop fetch, ticks) => some ({ w with phase := .parked, fetch }, { ticks })
      | (.error err, ticks) =>
        let (w, replies) := w.leave (some err)
        some (w, { ticks, replies })
      | (.panic, _) | (.undefinedBehaviour, _) => none
    else none
  | .recv =>
    match w.phase, w.queue with
    | .parked, event :: queue => some ({ w with phase := .checkpoint event, queue }, {})
    | _, _ => none
  | .newPromise => if w.inJs then some ({ w with isolate := w.isolate.newPromise }, {}) else none
  | .fulfil promise value =>
    if w.inJs ∧ w.isPending promise then
      some ({ w with isolate := w.isolate.fulfil promise value }, {})
    else none
  | .reject promise =>
    if w.inJs ∧ w.isPending promise then
      some ({ w with isolate := w.isolate.reject promise }, {})
    else none
  | .callFetch => if w.inJs then some ({ w with futures := w.futures ++ [false] }, {}) else none
  | .job =>
    match w.inJs, w.isolate.jobs with
    | true, (ptr, value) :: jobs => some (w.runJob ptr value jobs)
    | _, _ => none
  | .resume => if w.isolate.jobs = [] then w.resumed else none
  | .ret result =>
    match w.phase, result with
    | .calling reply, .threw => some (w.threw reply)
    | .calling reply, _ => if w.isolate.jobs = [] then w.returned reply result else none
    | _, _ => none
  -- the handler has returned, and the microtasks after it are terminated
  | .retTerminated result =>
    match w.phase, w.terminating with
    | .calling reply, true => { w with terminating := false }.discardJobs.returned reply result
    | _, _ => none
  | .terminate =>
    if w.terminating then
      let w := { w with terminating := false }
      match w.phase with
      | .calling reply => some (w.threw reply)
      | _ => w.discardJobs.resumed
    else none
  | .poll future ready =>
    match w.phase with
    | .parked => w.poll future ready false
    | .closing => w.poll future ready true
    | _ => none
  | .close =>
    if w.phase = .closing ∧ w.futures = [] then
      let (repliers, replies) := w.repliers.drop
      some ({ w with phase := .closed, repliers }, { replies := replies.map fun r => (r, some "") })
    else none
  | .cancel => if w.awaiting then some w.cancelled else none
  | .monitorLeave =>
    if w.monitor = .watching then
      some ({ w with monitor := .halting, terminating := true }, {})
    else none
  | .monitorSend =>
    if w.monitor = .halting then
      if w.rxOpen then
        if w.queue.length < workerCapacity then
          some ({ w with monitor := .waiting, queue := w.queue ++ [.halt .monitor] }, {})
        else none
      else some ({ w with monitor := .waiting }, {})
    else none
  | .monitorDone =>
    if w.monitor = .waiting ∧ ¬ w.holdsToken .monitor then
      some ({ w with monitor := .finished }, {})
    else none

def machine (task : WorkerTask) : Machine Worker WorkerAct where
  init := { task }
  step w a := (w.step a).map Prod.fst

end Worker

end Serverlessd
