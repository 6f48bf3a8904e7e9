import Serverlessd.Runtime.Serverless.CodeStoreLaws
import Serverlessd.Runtime.Serverless.Task

open FileSystem

namespace Serverlessd

def Op.Valid : Op → Prop
  | .createWorker name | .removeWorker name => validName name = true
  | .uploadWorker _ _ | .sendHttpToWorker _ _ => True

structure Io.Succeeds (io : Io) : Prop where
  write : io.write = .ok
  ok : io.ok = true

def Op.run (fs : FileSystem) (io : Io) : Op → FileSystem × Option String
  | .createWorker name => CodeStore.getWorkerCode fs io name
  | .uploadWorker name code => ((CodeStore.uploadWorkerCode fs io name code).1, none)
  | .removeWorker name => (CodeStore.removeWorkerCode fs io name, none)
  | .sendHttpToWorker _ _ => (fs, none)

def CodeMap : Type := String → Option ByteArray

namespace CodeMap

variable {m : CodeMap} {fs : FileSystem} {io : Io} {op : Op} {ops : List Op} {name : String}

def change (name : String) : Op → Option (Option ByteArray)
  | .uploadWorker other code => if other = name ∧ validName other then some (some code) else none
  | .removeWorker other => if other = name then some none else none
  | .createWorker _ | .sendHttpToWorker _ _ => none

def apply (m : CodeMap) (op : Op) : CodeMap := fun name => (change name op).getD (m name)

def after (m : CodeMap) (ops : List Op) : CodeMap := ops.foldl apply m

def source (m : CodeMap) : Op → Option String
  | .createWorker name => (m name).bind String.fromUTF8?
  | _ => none

/-- What an operation may return.  A worker may also be refused for want of a slot. -/
def Allows (m : CodeMap) (op : Op) (answer : Answer) : Prop :=
  match op with
  | .createWorker _ => answer = .created none ∨ ∃ ids, answer = .created (some ids) ∧ (m.source op).isSome
  | .uploadWorker name _ =>
    answer = .uploaded (if validName name then none else some (.invalidName name))
  | .removeWorker _ => answer = .removed
  | .sendHttpToWorker _ _ => answer = .dropped ∨ ∃ body, answer = .http body

def ofFiles (fs : FileSystem) : CodeMap := fun name => fs.files (CodeStore.codeFile fs.cwd name)

theorem after_concat : m.after (ops ++ [op]) = (m.after ops).apply op := by
  simp [after]

/-- The file system stores the map, under the names that an upload accepts. -/
structure Stores (dir : File) (fs : FileSystem) (m : CodeMap) : Prop where
  cwd : fs.cwd = dir
  files : ∀ name, validName name = true → fs.files (CodeStore.codeFile dir name) = m name

theorem stores_ofFiles : Stores fs.cwd fs (ofFiles fs) := ⟨rfl, fun _ _ => rfl⟩

open CodeStore

variable {dir : File}

theorem upload_succeeds {code : ByteArray} (h : validName name = true) (hio : io.Succeeds) :
    (uploadWorkerCode fs io name code).2 = .ok () := by
  simp [uploadWorkerCode, h, FileSystem.write, hasNul_codePath h, hio.write]

theorem remove_succeeds (h : validName name = true) (hio : io.Succeeds) :
    (removeWorkerCode fs io name).files (codeFile fs.cwd name) = none := by
  simp [removeWorkerCode, FileSystem.remove, hasNul_codePath h, hio.ok, ← @checkFs_resolve fs io]

theorem Stores.run (h : Stores dir fs m) (hv : op.Valid) (hio : io.Succeeds) :
    Stores dir (op.run fs io).1 (m.apply op) ∧ (op.run fs io).2 = m.source op := by
  obtain ⟨rfl, hfiles⟩ := h
  have hne : ∀ {name other : String}, validName name = true → validName other = true → other ≠ name →
      codeFile fs.cwd other ≠ codeFile fs.cwd name :=
    fun hn ho hne he => hne ((codeFile_inj ho hn).mp he)
  cases op with
  | createWorker name =>
    have hv : validName name = true := hv
    refine ⟨⟨get_cwd, fun other ho => ?_⟩, ?_⟩
    · exact (get_files codeFile_ne_gitignore).trans (hfiles other ho)
    · simp only [Op.run, source, get_valid hv hio.ok, hfiles name hv]
  | uploadWorker name code =>
    refine ⟨⟨upload_cwd, fun other ho => ?_⟩, rfl⟩
    by_cases hn : name = other ∧ validName name = true
    · obtain ⟨rfl, hn⟩ := hn
      simp only [Op.run, apply, change, hn, and_self, if_true, Option.getD_some]
      exact (upload_ok (upload_succeeds hn hio)).2
    · simp only [Op.run, apply, change, hn, if_false, Option.getD_none, ← hfiles other ho]
      cases hv : validName name with
      | false => rw [upload_invalid hv]
      | true =>
        refine upload_files_of_ne (hne hv ho fun he => hn ⟨he.symm, hv⟩) codeFile_ne_gitignore
  | removeWorker name =>
    have hv : validName name = true := hv
    refine ⟨⟨remove_cwd, fun other ho => ?_⟩, rfl⟩
    by_cases hn : name = other
    · subst hn
      simp only [Op.run, apply, change, if_true, Option.getD_some]
      exact remove_succeeds hv hio
    · simp only [Op.run, apply, change, hn, if_false, Option.getD_none, ← hfiles other ho]
      exact remove_files_of_ne (hne hv ho (Ne.symm hn)) codeFile_ne_gitignore
  | sendHttpToWorker => exact ⟨⟨rfl, hfiles⟩, rfl⟩

end CodeMap

end Serverlessd
