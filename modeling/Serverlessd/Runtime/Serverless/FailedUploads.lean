import Serverlessd.Runtime.Serverless.CodeStoreLaws

open FileSystem

namespace Serverlessd

namespace CodeStore

variable {fs fs' : FileSystem} {io : Io} {name other : String} {code : ByteArray}

def Keeps (fs fs' : FileSystem) (name : String) : Prop :=
  ∀ io io', io.ok = io'.ok → (getWorkerCode fs' io' name).2 = (getWorkerCode fs io name).2

/-- After an upload that failed: as long as its file was not opened, every name has its old
code.  Once it was, that file has the bytes that were written, and what does not lead to it
has its old code. -/
inductive Failed (fs : FileSystem) (io : Io) (name : String) (code : ByteArray) : Prop
  | unopened (closed : validName name = false ∨ io.write = .openFailed)
      (keeps : ∀ other, Keeps fs (uploadWorkerCode fs io name code).1 other)
  | torn {written : Nat} (failed : io.write = .failedAfter written)
      (stored : (uploadWorkerCode fs io name code).1.files (codeFile fs.cwd name) =
        some (code.extract 0 written))
      (keeps : ∀ other, codeFile fs.cwd other ≠ codeFile fs.cwd name →
        Keeps fs (uploadWorkerCode fs io name code).1 other)

theorem keeps_of_files (hcwd : fs'.cwd = fs.cwd)
    (h : fs'.files (codeFile fs.cwd name) = fs.files (codeFile fs.cwd name)) : Keeps fs fs' name := by
  intro io io' hok
  rw [get_eq, get_eq, hcwd, h, hok]

theorem upload_keeps (h : codeFile fs.cwd other ≠ codeFile fs.cwd name) :
    Keeps fs (uploadWorkerCode fs io name code).1 other := by
  apply keeps_of_files upload_cwd
  exact upload_files_of_ne h codeFile_ne_gitignore

theorem upload_unopened (h : validName name = false ∨ io.write = .openFailed) {file : File}
    (hg : file ≠ gitignore fs.cwd) :
    (uploadWorkerCode fs io name code).1.files file = fs.files file := by
  cases hv : validName name with
  | false => rw [upload_invalid hv]
  | true =>
    have hopen := h.resolve_left (by simp [hv])
    rw [upload_valid hv]
    simp [FileSystem.write, hasNul_codePath hv, hopen, checkFs_files hg]

theorem upload_torn {written : Nat} (hv : validName name = true)
    (h : io.write = .failedAfter written) :
    (uploadWorkerCode fs io name code).1.files (codeFile fs.cwd name) =
      some (code.extract 0 written) := by
  rw [upload_valid hv]
  simp [FileSystem.write, hasNul_codePath hv, h, checkFs_resolve]

theorem failed_upload {err : CodeStoreError}
    (h : (uploadWorkerCode fs io name code).2 = .error err) : Failed fs io name code := by
  have hunopened : validName name = false ∨ io.write = .openFailed → Failed fs io name code :=
    fun hclosed => .unopened hclosed fun _ =>
      keeps_of_files upload_cwd (upload_unopened hclosed codeFile_ne_gitignore)
  cases hv : validName name with
  | false => exact hunopened (.inl hv)
  | true =>
    cases hw : io.write with
    | ok => simp [uploadWorkerCode, hv, FileSystem.write, hasNul_codePath hv, hw] at h
    | openFailed => exact hunopened (.inr hw)
    | failedAfter written => exact .torn hw (upload_torn hv hw) fun _ => upload_keeps

def storeA : FileSystem where
  cwd := ⟨["srv".toList]⟩
  files := Function.update (fun _ => none) (codeFile ⟨["srv".toList]⟩ "a") (some "ab".toUTF8)

theorem failed_upload_storeA : Failed storeA { write := .failedAfter 1 } "a" "cd".toUTF8 := by
  have herr : (uploadWorkerCode storeA { write := .failedAfter 1 } "a" "cd".toUTF8).2 =
      .error .ioError := rfl
  exact failed_upload herr

theorem torn_upload : ¬ ∀ fs io name code err, (uploadWorkerCode fs io name code).2 = .error err →
    ∀ other io', (getWorkerCode (uploadWorkerCode fs io name code).1 io' other).2 =
      (getWorkerCode fs io' other).2 := by
  intro h
  have hget := h storeA { write := .failedAfter 1 } "a" "cd".toUTF8 .ioError rfl "a" {}
  rw [get_valid (by decide) rfl, get_valid (by decide) rfl, upload_cwd,
    upload_torn (by decide) rfl] at hget
  have hold : storeA.files (codeFile storeA.cwd "a") = some "ab".toUTF8 := by simp [storeA]
  rw [hold] at hget
  revert hget
  decide

end CodeStore

end Serverlessd
