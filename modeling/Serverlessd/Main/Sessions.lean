import Serverlessd.Main.StartOne
import Serverlessd.Main.Upload
import Serverlessd.Runtime.Serverless.Isolation
import Serverlessd.Runtime.Serverless.Linear

/-! The commands of `main`, one after the other in one directory. -/

open FileSystem

namespace Serverlessd

inductive Event
  | op (op : Op)
  | cleaned

namespace CodeMap

def Event.change (name : String) : Event → Option (Option ByteArray)
  | .op op => CodeMap.change name op
  | .cleaned => some none

def applyEvent (m : CodeMap) (e : Event) : CodeMap := fun name => (Event.change name e).getD (m name)

def replay (m : CodeMap) (es : List Event) : CodeMap := es.foldl applyEvent m

end CodeMap

structure CleanArgs where
  y : Bool := false

namespace CleanArgs

def run (fs : FileSystem) (buf : List Char) (outcome : RemoveOutcome) (args : CleanArgs) :
    FileSystem × Bool :=
  if !args.y && (buf.map Char.toLower).head? ≠ some 'y' then (fs, false)
  else (fs.removeDirAll ".serverlessd/".toList outcome, true)

end CleanArgs

/-- The address is left out: when it cannot be parsed, the process ends before it does anything. -/
inductive Command
  | one (file : List Char)
  | run (nPods nWorkersPerPod : Nat)
  | clean (args : CleanArgs)
  | upload (args : UploadArgs)

structure Env where
  secret : Option String
  crypto : Crypto
  buf : List Char := []

def blank : String := String.ofList (List.replicate 32 '0')

def Runtime.events (s : Runtime) : List Event :=
  (s.opsOf (s.log.map Processed.call)).map .op

open CodeStore UploadArgs

/-- One run of the program, stopped at any point: from the files before it to those after it, with
what it did to the code. -/
inductive Session (env : Env) : Command → FileSystem → List Event → FileSystem → Prop
  | unread {fs : FileSystem} {file : List Char} {ok : Bool}
      (read : (fs.read file ok).2.bind String.fromUTF8? = none) :
      Session env (.one file) fs [] (fs.read file ok).1
  | one {fs : FileSystem} {file : List Char} {ok : Bool} {io : Io} {source : String}
      {as : List StartOneAct} {s : StartOne} (read : (fs.read file ok).2.bind String.fromUTF8? = some source)
      (run : (StartOne.machine ⟨env.secret.getD blank, env.crypto⟩ source (fs.read file ok).1 io).Run as s)
      (faultless : s.runtime.Faultless) :
      Session env (.one file) fs s.runtime.events s.runtime.fs
  | secretless {fs : FileSystem} {nPods nWorkersPerPod : Nat} (unset : env.secret = none) :
      Session env (.run nPods nWorkersPerPod) fs [] fs
  | run {c : Config} {secret : String} {as : List AppAct} {s : App} (set : env.secret = some secret)
      (run : (App.machine ⟨secret, env.crypto⟩ c).Run as s) (faultless : s.runtime.Faultless) :
      Session env (.run c.nThreads c.nWorkers) c.fs s.runtime.events s.runtime.fs
  | canceled {fs : FileSystem} {args : CleanArgs} {outcome : RemoveOutcome}
      (said : (args.run fs env.buf outcome).2 = false) :
      Session env (.clean args) fs [] (args.run fs env.buf outcome).1
  | cleaned {fs : FileSystem} {args : CleanArgs} (said : (args.run fs env.buf .ok).2 = true) :
      Session env (.clean args) fs [.cleaned] (args.run fs env.buf .ok).1
  | uploaded {fs : FileSystem} {args : UploadArgs} {io : Io} {name : String} {content : ByteArray}
      (said : (args.run fs io).2 = true) (read : fs.files (fs.resolve args.file) = some content)
      (valid : validName name = true)
      (named : Path.resolve (workersDir fs.cwd) args.file = codeFile fs.cwd name) :
      Session env (.upload args) fs [.op (.uploadWorker name content)] (args.run fs io).1
  | elsewhere {fs : FileSystem} {args : UploadArgs} {io : Io} (said : (args.run fs io).2 = true)
      (other : ∀ name, validName name = true →
        Path.resolve (workersDir fs.cwd) args.file ≠ codeFile fs.cwd name) :
      Session env (.upload args) fs [] (args.run fs io).1
  | notUploaded {fs : FileSystem} {args : UploadArgs} {io : Io}
      (fails : (fs.read args.file io.ok).2 = none ∨ io.write = .openFailed) :
      Session env (.upload args) fs [] (args.run fs io).1

inductive Sessions : FileSystem → List Event → FileSystem → Prop
  | nil {fs : FileSystem} : Sessions fs [] fs
  | snoc {fs fs' fs'' : FileSystem} {es es' : List Event} {env : Env} {command : Command}
      (before : Sessions fs es fs') (last : Session env command fs' es' fs'') :
      Sessions fs (es ++ es') fs''

namespace CodeMap

variable {m : CodeMap} {es es' : List Event} {e : Event} {name : String} {dir : File} {fs : FileSystem}
variable {io : Io}

theorem replay_append : m.replay (es ++ es') = (m.replay es).replay es' := List.foldl_append

theorem replay_op {ops : List Op} : m.replay (ops.map .op) = m.after ops := by
  rw [replay, List.foldl_map]
  rfl

theorem replay_eq : m.replay es name = (es.reverse.findSome? (Event.change name)).getD (m name) := by
  induction es using List.reverseRecOn with
  | nil => rfl
  | append_singleton es e ih =>
    rw [replay_append, List.reverse_append, List.reverse_singleton, List.singleton_append,
      List.findSome?_cons]
    show (Event.change name e).getD (m.replay es name) = _
    rw [ih]
    cases Event.change name e <;> rfl

theorem Stores.congr {fs' : FileSystem} (h : Stores dir fs m) (hcwd : fs'.cwd = fs.cwd)
    (hfiles : ∀ name, validName name = true →
      fs'.files (codeFile fs.cwd name) = fs.files (codeFile fs.cwd name)) : Stores dir fs' m := by
  obtain ⟨rfl, hm⟩ := h
  exact ⟨hcwd, fun name hv => (hfiles name hv).trans (hm name hv)⟩

theorem Stores.read (h : Stores dir fs m) {path : List Char} {ok : Bool} :
    Stores dir (fs.read path ok).1 m :=
  h.congr read_cwd fun _ _ => by rw [read_files]

theorem Stores.checkFs (h : Stores dir fs m) : Stores dir (CodeStore.checkFs fs io) m :=
  h.congr checkFs_cwd fun _ _ => checkFs_files codeFile_ne_gitignore

end CodeMap

open CodeMap

section Commands

variable {m : CodeMap} {dir : File} {fs fs' : FileSystem} {io : Io} {name : String} {es : List Event}
variable {env : Env} {command : Command} {s : Runtime} {c : Config}

theorem Runtime.Sequenced.replay (h : s.Sequenced (start c).fs) (hf : s.Faultless)
    (hm : Stores dir c.fs m) : Stores dir s.fs (m.replay s.events) := by
  rw [Runtime.events, replay_op, h.replayed.last]
  exact h.stores hf hm.checkFs (List.append_nil s.log).symm

theorem sequenced_app {srv : Server} {as : List AppAct} {s : App} (h : (App.machine srv c).Run as s) :
    s.runtime.Sequenced (Runtime.start c).fs :=
  App.runtime_invariant (P := fun s => s.Sequenced (Runtime.start c).fs)
    (Runtime.sequenced_run Machine.run_nil) Runtime.Sequenced.step h

theorem sequenced_one {srv : Server} {source : String} {as : List StartOneAct} {s : StartOne}
    (h : (StartOne.machine srv source fs io).Run as s) :
    s.runtime.Sequenced (Runtime.start (StartOne.config fs io)).fs := by
  obtain ⟨bs, hr⟩ := StartOne.simulates.reachable h
  exact Runtime.sequenced_run hr

theorem below_of_valid (hv : validName name = true) :
    (fs.resolve parent).Below (codeFile fs.cwd name) := by
  have hdir : Path.resolve fs.cwd codeDir = ⟨(fs.resolve parent).components ++ ["workers".toList]⟩ := by
    have hcomponents : Path.components "workers/".toList = ["workers".toList] := by decide +kernel
    rw [codeDir, Path.resolve_join (by decide) (by decide), hcomponents]
    rfl
  rw [codeFile_of_valid hv, child, hdir, List.append_assoc]
  refine ⟨List.prefix_append _ _, fun he => ?_⟩
  simpa using congrArg (List.length ∘ File.components) he

theorem CodeMap.Stores.cleaned {args : CleanArgs} {buf : List Char} (h : Stores dir fs m)
    (said : (args.run fs buf .ok).2 = true) :
    Stores dir (args.run fs buf .ok).1 (m.applyEvent .cleaned) := by
  have hrun : (args.run fs buf .ok).1 = fs.removeDirAll parent .ok := by
    unfold CleanArgs.run at said ⊢
    split at said
    · cases said
    · rw [if_neg ‹_›]
      rfl
  obtain ⟨rfl, -⟩ := h
  rw [hrun]
  exact ⟨removeDirAll_cwd, fun name hv => removeDirAll_ok (by decide) (below_of_valid hv)⟩

theorem canceled_fs {args : CleanArgs} {buf : List Char} {outcome : RemoveOutcome}
    (said : (args.run fs buf outcome).2 = false) : (args.run fs buf outcome).1 = fs := by
  unfold CleanArgs.run at said ⊢
  split at said
  · rw [if_pos ‹_›]
  · cases said

theorem CodeMap.Stores.uploaded {args : UploadArgs} {content : ByteArray} (h : Stores dir fs m)
    (said : (args.run fs io).2 = true) (read : fs.files (fs.resolve args.file) = some content)
    (valid : validName name = true)
    (named : Path.resolve (workersDir fs.cwd) args.file = codeFile fs.cwd name) :
    Stores dir (args.run fs io).1 (m.applyEvent (.op (.uploadWorker name content))) := by
  obtain ⟨rfl, hm⟩ := h
  refine ⟨run_cwd said, fun other ho => ?_⟩
  rw [run_files said read, named]
  by_cases hn : other = name
  · subst hn
    simp [applyEvent, Event.change, CodeMap.change, valid]
  · have hne := (@codeFile_inj fs.cwd _ _ ho valid).not.mpr hn
    simp [applyEvent, Event.change, CodeMap.change, Ne.symm hn, hne, hm other ho]

theorem CodeMap.Stores.elsewhere {args : UploadArgs} (h : Stores dir fs m)
    (said : (args.run fs io).2 = true) (other : ∀ name, validName name = true →
      Path.resolve (workersDir fs.cwd) args.file ≠ codeFile fs.cwd name) :
    Stores dir (args.run fs io).1 m := by
  obtain ⟨content, read, -⟩ := run_ok said
  refine h.congr (run_cwd said) fun name hv => ?_
  rw [run_files said read, if_neg (other name hv).symm]

theorem notUploaded_fs {args : UploadArgs} (fails : (fs.read args.file io.ok).2 = none ∨ io.write = .openFailed) :
    (args.run fs io).1.cwd = fs.cwd ∧ (args.run fs io).1.files = fs.files := by
  unfold UploadArgs.run
  split
  · rename_i fs' hread
    obtain rfl : (fs.read args.file io.ok).1 = fs' := by rw [hread]
    exact ⟨read_cwd, read_files⟩
  · rename_i fs' contents hread
    obtain rfl : (fs.read args.file io.ok).1 = fs' := by rw [hread]
    have hw : io.write = .openFailed := fails.resolve_left (by rw [hread]; simp)
    refine ⟨write_cwd.trans read_cwd, ?_⟩
    rw [hw, write_openFailed, read_files]

theorem Session.stores (h : Session env command fs es fs') (hm : Stores dir fs m) :
    Stores dir fs' (m.replay es) := by
  cases h with
  | unread => exact hm.read
  | one read run faultless => exact (sequenced_one run).replay faultless hm.read
  | secretless => exact hm
  | run set run faultless => exact (sequenced_app run).replay faultless hm
  | canceled said => rwa [canceled_fs said]
  | cleaned said => exact hm.cleaned said
  | uploaded said read valid named => exact hm.uploaded said read valid named
  | elsewhere said other => exact hm.elsewhere said other
  | notUploaded fails =>
    obtain ⟨hcwd, hfiles⟩ := notUploaded_fs fails
    exact hm.congr hcwd fun _ _ => by rw [hfiles]

theorem Sessions.stores (h : Sessions fs es fs') : Stores fs.cwd fs' ((ofFiles fs).replay es) := by
  induction h with
  | nil => exact stores_ofFiles
  | snoc before last ih =>
    rw [replay_append]
    exact last.stores ih

/-- A worker runs the text that was stored last under its name, in whichever run of the program. -/
theorem Sessions.durable {srv : Server} {as : List AppAct} {s : App} {pod wrk : Nat} {task : WorkerTask}
    (h : Sessions fs es c.fs) (hr : (App.machine srv c).Run as s) (hf : s.runtime.Faultless)
    (ht : s.runtime.taskOf pod wrk = some task) : ∃ pre post name,
      s.runtime.order = pre ++ task.call :: post ∧
      s.runtime.opOf task.call = some (.createWorker name) ∧
      (((es ++ (s.runtime.opsOf pre).map Event.op).reverse.findSome? (Event.change name)).getD
        (ofFiles fs name)).bind String.fromUTF8? = some task.source := by
  have hs := sequenced_app hr
  obtain ⟨e, he, hcall, hsource⟩ := hs.labelled.taskStarted ht
  obtain ⟨pre, post, op, horder, hop, hread⟩ := hs.reads hf h.stores.checkFs he
  rw [hcall] at horder hop
  rw [hsource] at hread
  cases op with
  | createWorker name =>
    refine ⟨pre, post, name, horder, hop, ?_⟩
    rw [← replay_eq, replay_append, replay_op]
    exact hread
  | uploadWorker | removeWorker | sendHttpToWorker => cases hread

end Commands

def withFile : FileSystem where
  cwd := ⟨["srv".toList]⟩
  files file := if file = ⟨["srv".toList, "a.js".toList]⟩ then some "x".toUTF8 else none

def uploadA : UploadArgs := ⟨"a.js".toList, "b"⟩

def createdRun : List AppAct :=
  [.request App.getWorker 0] ++
    ([.enqueue 0, .recv {}, .send, .pod 0 .recv, .send, .pod 0 .recv, .ret 0] : List RuntimeAct).map .runtime

set_option maxRecDepth 10000 in
theorem Sessions.durable_createdRun :
    ∃ s, (App.machine ⟨"secret", App.cryptoX⟩ ⟨1, 1, (uploadA.run withFile {}).1, {}⟩).Run createdRun s ∧
      s.runtime.taskOf 0 0 = some ⟨"x", 0⟩ ∧
      ∃ pre post name, s.runtime.order = pre ++ 0 :: post ∧
        s.runtime.opOf 0 = some (.createWorker name) ∧
        ((([Event.op (.uploadWorker "a" "x".toUTF8)] ++ (s.runtime.opsOf pre).map Event.op).reverse.findSome?
          (Event.change name)).getD (ofFiles withFile name)).bind String.fromUTF8? = some "x" := by
  have hsession : Session ⟨none, App.cryptoX, []⟩ (.upload uploadA) withFile
      [.op (.uploadWorker "a" "x".toUTF8)] (uploadA.run withFile {}).1 :=
    .uploaded (by decide +kernel) (by decide +kernel) (by decide +kernel) (by decide +kernel)
  obtain ⟨s, hs, htask, hcalls, hlog⟩ : ∃ s, (App.machine ⟨"secret", App.cryptoX⟩
      ⟨1, 1, (uploadA.run withFile {}).1, {}⟩).Run createdRun s ∧
      s.runtime.taskOf 0 0 = some ⟨"x", 0⟩ ∧ (∀ c ∈ s.runtime.calls, c.op.Valid) ∧
      (∀ e ∈ s.runtime.log, e.io.Succeeds) :=
    ⟨_, rfl, by decide +kernel, by decide +kernel, by decide +kernel⟩
  exact ⟨s, hs, htask, Sessions.durable (.snoc .nil hsession) hs ⟨hcalls, hlog⟩ htask⟩

end Serverlessd
