namespace Serverlessd

inductive WorkerError
  | runtimeError
  | compileError
  | moduleInitError
  | noEntrypoint
  | timeout
  deriving DecidableEq

inductive Thrown
  | object
  | primitive
  | nothing
  deriving DecidableEq

inductive Intrinsics
  | built
  | failed (thrown : Thrown)
  | notEvaluated
  | rejected
  deriving DecidableEq

inductive ModulePromise
  | fulfilled
  | rejected (value : Thrown)
  | pending
  deriving DecidableEq

inductive InitOutcome
  | loop (fetch : Bool)
  | error (err : WorkerError)
  | panic
  | undefinedBehaviour
  deriving DecidableEq

/-- `exception_details` casts the thrown value to an object, which panics on a primitive. -/
def InitOutcome.failed (err : WorkerError) : Thrown → InitOutcome
  | .primitive => .panic
  | .object | .nothing => .error err

/-- V8's answers, in the order in which `create_task` asks for them.  `none` is
success; `sourceFits` says that V8 can hold the source as a string, and `fetches`
counts the `fetch()` calls made by the module's top level.

`evaluating`, `pumping`, `getting` and `describing` count the executions of the worker's code
by the evaluation of the module, by the message loop, by the read of `fetch` and by the reads
of what was thrown; the microtasks after a call are an execution of their own.  `terminated`
is the number of the execution that the monitor terminated. -/
structure InitAnswers where
  intrinsics : Intrinsics := .built
  globals : Option Thrown := none
  sourceFits : Bool := true
  compiled : Option Thrown := none
  instantiated : Option Thrown := none
  evaluated : Option Thrown := none
  promise : ModulePromise := .fulfilled
  defaultExport : Except Thrown Bool := .ok true
  fetchMember : Except Thrown Bool := .ok true
  fetches : Nat := 0
  evaluating : Nat := 0
  pumping : Nat := 0
  getting : Nat := 0
  describing : Nat := 0
  terminated : Option Nat := none

def createTaskInit (a : InitAnswers) : InitOutcome × Nat :=
  match a.intrinsics, a.globals, a.sourceFits, a.compiled with
  | .notEvaluated, _, _, _ | .rejected, _, _, _ => (.panic, 0)
  | .failed thrown, _, _, _ => (.failed .moduleInitError thrown, 0)
  | .built, some thrown, _, _ => (.failed .moduleInitError thrown, 0)
  | .built, none, false, _ => (.panic, 0)
  | .built, none, true, some thrown => (.failed .compileError thrown, 0)
  | .built, none, true, none =>
    match a.instantiated, a.evaluated with
    | some thrown, _ => (.failed .moduleInitError thrown, 1)
    | none, some thrown => (.failed .moduleInitError thrown, 1)
    | none, none =>
      match a.promise with
      | .pending => (.undefinedBehaviour, 2)
      | .rejected value => (.failed .moduleInitError value, 2)
      | .fulfilled =>
        match a.defaultExport with
        | .error thrown => (.failed .moduleInitError thrown, 2)
        | .ok false => (.error .noEntrypoint, 2)
        | .ok true =>
          match a.fetchMember with
          | .error thrown => (.failed .moduleInitError thrown, 2)
          | .ok isFunction => (.loop isFunction, 2)

namespace InitAnswers

def executions (a : InitAnswers) : Nat :=
  let started :=
    match a.intrinsics, a.globals, a.sourceFits, a.compiled, a.instantiated with
    | .built, none, true, none, none =>
      match a.evaluated, a.promise, a.defaultExport with
      | some _, _, _ => a.evaluating
      | none, .fulfilled, .ok true => a.evaluating + a.pumping + a.getting
      | none, _, _ => a.evaluating + a.pumping
    | _, _, _, _, _ => 0
  match (createTaskInit a).1 with
  | .error .noEntrypoint => started
  | .error _ => started + a.describing
  | _ => started

/-- A requested termination stops the execution in progress, or the next one to start. -/
def terminates (a : InitAnswers) (terminating : Bool) : Bool :=
  match a.terminated with
  | some i => terminating && i < a.executions
  | none => !terminating || a.executions = 0

end InitAnswers

theorem createTaskInit_loop {a : InitAnswers} {fetch : Bool}
    (h : (createTaskInit a).1 = .loop fetch) : (createTaskInit a).2 = 2 := by
  have hfailed : ∀ err thrown, InitOutcome.failed err thrown ≠ .loop fetch := by
    intro err thrown
    cases thrown <;> nofun
  unfold createTaskInit at h ⊢
  repeat' split at h
  all_goals first | rfl | exact absurd h (hfailed _ _) | cases h

end Serverlessd
