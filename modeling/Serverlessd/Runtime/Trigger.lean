namespace Serverlessd

inductive Halter
  | pod
  | monitor
  deriving DecidableEq

inductive WorkerTrigger
  | http (reply : Nat)
  | halt (token : Halter)
  deriving DecidableEq

/-- `call` is not in the source: it says for which `CreateWorker` the task was made. -/
structure WorkerTask where
  source : String
  call : Nat
  deriving DecidableEq

/-- `serverless_task` waits inline for each reply of a pod, so the reply channels
of the pod's triggers need no name. -/
inductive PodTrigger
  | checkVacancies
  | createWorker (task : WorkerTask)
  | toWorker (id : Nat) (trigger : WorkerTrigger)
  | halt
  deriving DecidableEq

inductive ServerlessTrigger
  | createWorker (name : String) (reply : Nat)
  | uploadWorkerCode (name : String) (code : ByteArray) (reply : Nat)
  | removeWorkerCode (name : String)
  | toPod (id : Nat) (trigger : PodTrigger)

def WorkerTrigger.replies : WorkerTrigger → List Nat
  | .http reply => [reply]
  | .halt _ => []

def PodTrigger.replies : PodTrigger → List Nat
  | .toWorker _ trigger => trigger.replies
  | _ => []

def ServerlessTrigger.replies : ServerlessTrigger → List Nat
  | .createWorker _ reply => [reply]
  | .uploadWorkerCode _ _ reply => [reply]
  | .removeWorkerCode _ => []
  | .toPod _ trigger => trigger.replies

end Serverlessd
