import Serverlessd.Runtime.Serverless.CodeStoreLaws

open FileSystem

namespace Serverlessd

structure UploadArgs where
  file : List Char
  name : String
  deriving DecidableEq

namespace UploadArgs

open CodeStore

def workersPath : List Char := ".serverlessd/workers/".toList

/-- `Command::Upload(args)`, with what it reports; `args.name` is not used. -/
def run (fs : FileSystem) (io : Io) (args : UploadArgs) : FileSystem × Bool :=
  match fs.read args.file io.ok with
  | (fs, none) => (fs, false)
  | (fs, some contents) => fs.write (Path.join workersPath args.file) contents io.write

def workersDir (cwd : File) : File := Path.resolve cwd workersPath

def Inside (dir file : File) : Prop := dir.components <+: file.components

def calls (fs : FileSystem) (io : Io) (args : UploadArgs) : List Call :=
  (args.run fs io).1.calls.drop fs.calls.length

def stored (fs : FileSystem) (name : String) (content : ByteArray) : FileSystem :=
  (uploadWorkerCode fs {} name content).1

structure Agrees (fs : FileSystem) (io : Io) (args : UploadArgs) (content : ByteArray) : Prop where
  store : ∀ name, validName name = true →
    (args.run fs io).1.files (codeFile fs.cwd name) =
      (stored fs args.name content).files (codeFile fs.cwd name)
  get : ∀ io', io'.ok = true →
    (getWorkerCode (args.run fs io).1 io' args.name).2 = String.fromUTF8? content
  others : ∀ name, validName name = true → name ≠ args.name →
    (args.run fs io).1.files (codeFile fs.cwd name) = fs.files (codeFile fs.cwd name)
  inside : ∀ file, .write file ∈ args.calls fs io → Inside (workersDir fs.cwd) file

/-- Read from `.serverlessd/workers/`, the path of the file leads to the code of the name;
or it leads elsewhere into that directory, with the content stored already under the name
and, if it is the code of another name, under that one. -/
structure WellPlaced (fs : FileSystem) (args : UploadArgs) (content : ByteArray) : Prop where
  inside : Inside (workersDir fs.cwd) (Path.resolve (workersDir fs.cwd) args.file)
  named : Path.resolve (workersDir fs.cwd) args.file = codeFile fs.cwd args.name ∨
    fs.files (codeFile fs.cwd args.name) = some content
  others : ∀ name, validName name = true → name ≠ args.name →
    Path.resolve (workersDir fs.cwd) args.file = codeFile fs.cwd name →
    fs.files (codeFile fs.cwd name) = some content

variable {fs : FileSystem} {io : Io} {args : UploadArgs} {content : ByteArray}

theorem run_ok (h : (args.run fs io).2 = true) :
    ∃ contents, fs.files (fs.resolve args.file) = some contents ∧
      (args.run fs io).1 =
        ((fs.call (.read (fs.resolve args.file))).call
          (.write (Path.resolve (workersDir fs.cwd) args.file))).put
            (Path.resolve (workersDir fs.cwd) args.file) (some contents) := by
  unfold run at h ⊢
  split at h
  · cases h
  · rename_i fs' contents hread
    obtain ⟨hfile, rfl⟩ : fs.files (fs.resolve args.file) = some contents ∧
        fs' = fs.call (.read (fs.resolve args.file)) := by
      have := @read_eq_some fs args.file contents io.ok (by rw [hread])
      rwa [hread] at this
    have hdst : (fs.call (.read (fs.resolve args.file))).resolve (Path.join workersPath args.file) =
        Path.resolve (workersDir fs.cwd) args.file := Path.resolve_join_eq (by decide)
    refine ⟨contents, hfile, ?_⟩
    exact (write_eq h).trans (by rw [hdst])

theorem stored_files (hv : validName args.name = true) {name : String}
    (hname : validName name = true) :
    (stored fs args.name content).files (codeFile fs.cwd name) =
      if name = args.name then some content else fs.files (codeFile fs.cwd name) := by
  split
  · rename_i he
    subst he
    refine (upload_ok ?_).2
    simp [uploadWorkerCode, hv, FileSystem.write, hasNul_codePath hv]
  · rename_i hne
    refine upload_files_of_ne ?_ codeFile_ne_gitignore
    exact fun he => hne ((codeFile_inj hname hv).mp he)

theorem run_files (h : (args.run fs io).2 = true)
    (hc : fs.files (fs.resolve args.file) = some content) {file : File} :
    (args.run fs io).1.files file =
      if file = Path.resolve (workersDir fs.cwd) args.file then some content else fs.files file := by
  obtain ⟨contents, hread, hrun⟩ := run_ok h
  obtain rfl : contents = content := Option.some.inj (hread.symm.trans hc)
  simp [hrun, put, Function.update_apply]

theorem write_mem_calls (h : (args.run fs io).2 = true) {file : File} :
    .write file ∈ args.calls fs io ↔ file = Path.resolve (workersDir fs.cwd) args.file := by
  obtain ⟨contents, hread, hrun⟩ := run_ok h
  simp [calls, hrun, put, call]

theorem run_cwd (h : (args.run fs io).2 = true) : (args.run fs io).1.cwd = fs.cwd := by
  obtain ⟨contents, hread, hrun⟩ := run_ok h
  simp [hrun]

section Placed

variable (hv : validName args.name = true) (h : (args.run fs io).2 = true)
variable (hc : fs.files (fs.resolve args.file) = some content)

include hv h hc

theorem agrees_of_wellPlaced (hp : WellPlaced fs args content) : Agrees fs io args content := by
  have hstore : ∀ name, validName name = true →
      (args.run fs io).1.files (codeFile fs.cwd name) =
        if name = args.name then some content else fs.files (codeFile fs.cwd name) := by
    intro name hname
    rw [run_files h hc]
    by_cases hn : name = args.name
    · subst hn
      rw [if_pos rfl]
      split
      · rfl
      · exact hp.named.resolve_left fun he => absurd he.symm ‹_›
    · rw [if_neg hn]
      split
      · exact (hp.others name hname hn (Eq.symm ‹_›)).symm
      · rfl
  refine ⟨fun name hname => ?_, fun io' hok => ?_, fun name hname hn => ?_, fun file hw => ?_⟩
  · rw [hstore name hname, stored_files hv hname]
  · rw [get_valid hv hok, run_cwd h, hstore args.name hv, if_pos rfl]
    rfl
  · rw [hstore name hname, if_neg hn]
  · rw [(write_mem_calls h).mp hw]
    exact hp.inside

theorem wellPlaced_of_agrees (ha : Agrees fs io args content) : WellPlaced fs args content where
  inside := ha.inside _ ((write_mem_calls h).mpr rfl)
  named := by
    by_cases hn : Path.resolve (workersDir fs.cwd) args.file = codeFile fs.cwd args.name
    · exact .inl hn
    · refine .inr ?_
      have hstore := ha.store args.name hv
      rwa [run_files h hc, if_neg (Ne.symm hn), stored_files hv hv, if_pos rfl] at hstore
  others := by
    intro name hname hn hdst
    have hother := ha.others name hname hn
    rw [run_files h hc, if_pos hdst.symm] at hother
    exact hother.symm

/-- A command that reports success does what an upload of the file under the name does
exactly when the file is well placed. -/
theorem agrees_iff : Agrees fs io args content ↔ WellPlaced fs args content :=
  ⟨wellPlaced_of_agrees hv h hc, agrees_of_wellPlaced hv h hc⟩

end Placed

def fooJs : FileSystem where
  cwd := ⟨["srv".toList]⟩
  files file := if file = ⟨["srv".toList, "foo.js".toList]⟩ then some "x".toUTF8 else none

set_option maxRecDepth 10000 in
theorem agrees_iff_of_foo :
    Agrees fooJs {} ⟨"foo.js".toList, "foo"⟩ "x".toUTF8 ↔
      WellPlaced fooJs ⟨"foo.js".toList, "foo"⟩ "x".toUTF8 :=
  agrees_iff (by decide +kernel) (by decide +kernel) (by decide +kernel)

set_option maxRecDepth 10000 in
theorem upload_elsewhere :
    (UploadArgs.run fooJs {} ⟨"foo.js".toList, "bar"⟩).2 = true ∧
    ¬ Agrees fooJs {} ⟨"foo.js".toList, "bar"⟩ "x".toUTF8 ∧
    (UploadArgs.run fooJs {} ⟨"/srv/foo.js".toList, "foo"⟩).2 = true ∧
    ¬ Agrees fooJs {} ⟨"/srv/foo.js".toList, "foo"⟩ "x".toUTF8 := by
  refine ⟨by decide +kernel, fun ha => ?_, by decide +kernel, fun ha => ?_⟩
  · exact absurd (ha.others "foo" (by decide) (by decide)) (by decide +kernel)
  · exact absurd (ha.inside ⟨["srv".toList, "foo.js".toList]⟩ (by decide +kernel)) (by
      unfold Inside
      decide +kernel)

end UploadArgs

end Serverlessd
