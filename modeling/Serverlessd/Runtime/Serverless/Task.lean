import Serverlessd.Lib.Fifo
import Serverlessd.Runtime.Pod.Task
import Serverlessd.Runtime.Serverless.CodeStore

/-! `serverless_task` with its pods, and the clients that call its `ServerlessHandle`. -/

namespace Serverlessd

inductive Op
  | createWorker (name : String)
  | uploadWorker (name : String) (code : ByteArray)
  | removeWorker (name : String)
  | sendHttpToWorker (pod wrk : Nat)

def Op.trigger (call : Nat) : Op → ServerlessTrigger
  | .createWorker name => .createWorker name call
  | .uploadWorker name code => .uploadWorkerCode name code call
  | .removeWorker name => .removeWorkerCode name
  | .sendHttpToWorker pod wrk => .toPod pod (.toWorker wrk (.http call))

inductive Answer
  | created (result : Option (Nat × Nat))
  | uploaded (err : Option CodeStoreError)
  | removed
  | http (body : String)
  | dropped
  deriving DecidableEq

structure Call where
  client : Nat
  op : Op
  status : Fifo.Status

/-- Where `serverless_task` is: in its `select!`, in the body of one of its arms, or in
`close_serverless`. -/
inductive ServerlessPhase
  | selecting
  | finding (task : WorkerTask) (idx : Nat)
  | awaitingVacancy (task : WorkerTask) (idx : Nat)
  | placing (task : WorkerTask) (idx : Nat)
  | awaitingWorker (call : Nat) (idx : Nat)
  | forwarding (id : Nat) (trigger : PodTrigger)
  | halting (idx : Nat)
  | awaitingHalt (idx : Nat)
  | joining
  | closed
  deriving DecidableEq

/-- Not in the source: a message taken from the queue, how the calls to the file system
ended, the source that was read for a `CreateWorker`, and the file system after it. -/
structure Processed where
  call : Nat
  io : Io
  source : Option String
  fs : FileSystem

/-- `log`, `history` and `delivered` are not in the source. -/
structure Runtime where
  fs : FileSystem
  pods : List PodTask
  queue : List (Nat × ServerlessTrigger) := []
  phase : ServerlessPhase := .selecting
  calls : List Call := []
  replies : List (Nat × Answer) := []
  log : List Processed := []
  history : List (Fifo.Event Answer) := []
  delivered : List (Nat × Nat × Nat) := []

inductive RuntimeAct
  | issue (client : Nat) (op : Op)
  | enqueue (call : Nat)
  | refuse (call : Nat)
  | abandon (call : Nat)
  | ret (call : Nat)
  | recv (io : Io)
  | send
  | shutdown
  | serverExit
  | pod (idx : Nat) (a : PodAct)

structure Config where
  nThreads : Nat
  nWorkers : Nat
  fs : FileSystem
  io : Io := {}

def serverlessCapacity : Nat := 512

namespace ServerlessPhase

def sends : ServerlessPhase → Option (Nat × PodTrigger × ServerlessPhase)
  | finding task idx => some (idx, .checkVacancies, awaitingVacancy task idx)
  | placing task idx => some (idx, .createWorker task, awaitingWorker task.call idx)
  | forwarding id trigger => some (id, trigger, selecting)
  | halting idx => some (idx, .halt, awaitingHalt idx)
  | _ => none

def awaits : ServerlessPhase → Option Nat
  | awaitingVacancy _ idx => some idx
  | awaitingWorker _ idx => some idx
  | awaitingHalt idx => some idx
  | _ => none

end ServerlessPhase

namespace Runtime

def start (c : Config) : Runtime where
  fs := CodeStore.checkFs c.fs c.io
  pods := List.replicate c.nThreads (.start c.nWorkers)

def rxOpen (s : Runtime) : Bool := decide (s.phase ≠ .closed)

def setStatus (s : Runtime) (call : Nat) (status : Fifo.Status) : Runtime :=
  { s with calls := s.calls.modify call fun c => { c with status } }

def record (s : Runtime) (event : Fifo.Event Answer) : Runtime :=
  { s with history := s.history ++ [event] }

def processed (s : Runtime) (entry : Processed) : Runtime :=
  { s with fs := entry.fs, log := s.log ++ [entry] }

def answer (s : Runtime) (call : Nat) (a : Answer) : Runtime :=
  { s with replies := s.replies ++ [(call, a)] }

def drop (s : Runtime) (replies : List Nat) : Runtime :=
  { s with replies := s.replies ++ replies.map fun r => (r, .dropped) }

/-- What `upload_worker` returns: `None` when the reply is lost, too. -/
def uploadResult : Answer → Option CodeStoreError
  | .uploaded err => err
  | _ => none

def answerOf (s : Runtime) (call : Nat) (op : Op) : Option Answer :=
  match op with
  | .removeWorker _ => some .removed
  | _ => s.replies.lookup call

def err : Except CodeStoreError Unit → Option CodeStoreError
  | .ok () => none
  | .error e => some e

def process (s : Runtime) (io : Io) (call : Nat) (trigger : ServerlessTrigger) : Runtime :=
  match trigger with
  | .createWorker name reply =>
    let (fs, source) := CodeStore.getWorkerCode s.fs io name
    let s := s.processed ⟨call, io, source, fs⟩
    match source with
    | some source => { s with phase := .finding ⟨source, reply⟩ 0 }
    | none => s.answer reply (.created none)
  | .toPod id trigger =>
    let s := s.processed ⟨call, io, none, s.fs⟩
    if id < s.pods.length then { s with phase := .forwarding id trigger }
    else s.drop trigger.replies
  | .uploadWorkerCode name code reply =>
    let (fs, result) := CodeStore.uploadWorkerCode s.fs io name code
    (s.processed ⟨call, io, none, fs⟩).answer reply (.uploaded (err result))
  | .removeWorkerCode name =>
    s.processed ⟨call, io, none, CodeStore.removeWorkerCode s.fs io name⟩

def failed (s : Runtime) : Runtime :=
  match s.phase with
  | .finding task idx | .awaitingVacancy task idx => { s with phase := .finding task (idx + 1) }
  | .placing task _ => { s with phase := .selecting }.answer task.call (.created none)
  | .awaitingWorker call _ => { s with phase := .selecting }.answer call (.created none)
  | .forwarding _ trigger => { s with phase := .selecting }.drop trigger.replies
  | .halting idx | .awaitingHalt idx => { s with phase := .halting (idx + 1) }
  | _ => s

def exhausted (s : Runtime) : Option Runtime :=
  match s.phase with
  | .finding task _ => some ({ s with phase := .selecting }.answer task.call (.created none))
  | .halting _ => some { s with phase := .joining }
  | _ => none

def close (s : Runtime) : Runtime :=
  { s with phase := .closed, queue := [] }.drop (s.queue.flatMap fun (m : Nat × ServerlessTrigger) => m.2.replies)

def deliver (s : Runtime) (reply : Option PodReply) : Runtime :=
  match s.phase, reply with
  | .awaitingVacancy task idx, some (.vacancy true) => { s with phase := .placing task idx }
  | .awaitingVacancy task idx, some (.vacancy false) => { s with phase := .finding task (idx + 1) }
  | .awaitingWorker call idx, some (.worker id) =>
    { s with phase := .selecting }.answer call (.created (some (idx, id)))
  | .awaitingHalt idx, some .halted => { s with phase := .halting (idx + 1) }
  | _, _ => s

def answers (replies : List (Nat × Option String)) : List (Nat × Answer) :=
  replies.map fun r => (r.1, r.2.elim .dropped .http)

def emit (s : Runtime) (idx : Nat) (o : PodOut) : Runtime :=
  { s with
    replies := s.replies ++ answers o.replies
    delivered := s.delivered ++ o.delivered.map fun (d : Nat × Nat) => (d.1, idx, d.2) }.deliver o.reply

def stepSend (s : Runtime) : Option Runtime :=
  match s.phase.sends, s.phase.awaits with
  | some (idx, trigger, next), _ =>
    match s.pods[idx]? with
    | none => s.exhausted
    | some pod =>
      if pod.rxOpen then
        if pod.queue.length < podCapacity then
          some { s with
            phase := next
            pods := s.pods.set idx { pod with queue := pod.queue ++ [trigger] } }
        else none
      else some s.failed
  | none, some idx =>
    match s.pods[idx]? with
    | none => none
    | some pod => if pod.rxOpen then none else some s.failed
  | none, none =>
    if s.phase = .joining ∧ ∀ pod ∈ s.pods, pod.rxOpen = false then some s.close else none

def step (s : Runtime) : RuntimeAct → Option Runtime
  | .issue client op =>
    if ∀ c ∈ s.calls, c.client = client → c.status = .done then
      some ({ s with calls := s.calls ++ [(⟨client, op, .sending⟩ : Call)] }.record (.issued s.calls.length))
    else none
  | .enqueue call =>
    match s.calls[call]? with
    | some ⟨_, op, .sending⟩ =>
      if s.rxOpen ∧ s.queue.length < serverlessCapacity then
        some (({ s with queue := s.queue ++ [(call, op.trigger call)] }.setStatus call .waiting).record
          (.sent call))
      else none
    | _ => none
  | .refuse call =>
    match s.calls[call]? with
    | some ⟨_, _, .sending⟩ =>
      if s.rxOpen then none
      else some (((s.setStatus call .done).answer call .dropped).record (.returned call .dropped))
    | _ => none
  | .abandon call =>
    match s.calls[call]? with
    | some ⟨_, _, .sending⟩ =>
      some (((s.setStatus call .done).answer call .dropped).record (.abandoned call))
    | some ⟨_, _, .waiting⟩ => some ((s.setStatus call .done).record (.abandoned call))
    | _ => none
  | .ret call =>
    match s.calls[call]? with
    | some ⟨_, op, .waiting⟩ =>
      (s.answerOf call op).map fun a => (s.setStatus call .done).record (.returned call a)
    | _ => none
  | .recv io =>
    match s.phase, s.queue with
    | .selecting, (call, trigger) :: queue => some ({ s with queue }.process io call trigger)
    | _, _ => none
  | .send => s.stepSend
  | .shutdown => if s.phase = .selecting then some { s with phase := .halting 0 } else none
  | .serverExit => if s.phase = .selecting then some s.close else none
  | .pod idx a =>
    match s.pods[idx]?, a with
    | some pod, .hangup =>
      if s.phase = .closed then
        (pod.step .hangup).map fun next => { s with pods := s.pods.set idx next.1 }.emit idx next.2
      else none
    | some pod, a =>
      (pod.step a).map fun next => { s with pods := s.pods.set idx next.1 }.emit idx next.2
    | none, _ => none

def machine (c : Config) : Machine Runtime RuntimeAct := ⟨start c, step⟩

end Runtime

end Serverlessd
