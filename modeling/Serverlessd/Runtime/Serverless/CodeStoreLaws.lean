import Serverlessd.Runtime.Serverless.CodeStore

open FileSystem

namespace Serverlessd

namespace CodeStore

variable {fs : FileSystem} {io : Io} {cwd : File} {name other : String} {code : ByteArray}

def codeFile (cwd : File) (name : String) : File := Path.resolve cwd (codePath name)

def child (cwd : File) (leaf : List Char) : File :=
  ⟨(Path.resolve cwd codeDir).components ++ [leaf]⟩

def gitignore (cwd : File) : File := Path.resolve cwd (Path.join parent ".gitignore".toList)

theorem validChar_of_mem (h : validName name) {c : Char} (hc : c ∈ name.toList) :
    c ≠ '/' ∧ c ≠ '\x00' := by
  simp only [validName, Bool.and_eq_true, List.all_eq_true] at h
  have hv := h.2 c hc
  constructor <;> rintro rfl <;> revert hv <;> decide

theorem leaf_js {leaf : List Char} (h : '/' ∉ leaf) : Path.Leaf (leaf ++ ".js".toList) where
  noSep := by simpa using h
  ne_nil := by simp
  ne_dot hd := by simpa using congrArg List.getLast? hd
  ne_dots hd := by simpa using congrArg List.getLast? hd

theorem leaf_fileName (h : validName name) : Path.Leaf (fileName name) :=
  leaf_js fun hm => (validChar_of_mem h hm).1 rfl

theorem hasNul_codePath (h : validName name) : hasNul (codePath name) = false := by
  have hmem : '\x00' ∉ codeDir ++ fileName name := by
    intro hm
    obtain hm | hm := List.mem_append.mp hm
    · exact absurd hm (by decide)
    · obtain hm | hm := List.mem_append.mp hm
      · exact (validChar_of_mem h hm).2 rfl
      · exact absurd hm (by decide)
  have hpath : codePath name = codeDir ++ fileName name := by
    have := (leaf_fileName h).not_absolute
    rw [codePath, Path.join, if_neg this, if_pos (by decide)]
  simpa [hasNul, hpath] using hmem

theorem codeFile_of_valid (h : validName name) : codeFile cwd name = child cwd (fileName name) :=
  Path.resolve_join_leaf (leaf_fileName h) (by decide)

theorem child_inj {leaf leaf' : List Char} : child cwd leaf = child cwd leaf' ↔ leaf = leaf' := by
  simp [child]

theorem codeFile_inj (h : validName name) (h' : validName other) :
    codeFile cwd name = codeFile cwd other ↔ name = other := by
  rw [codeFile_of_valid h, codeFile_of_valid h', child_inj, fileName, fileName,
    List.append_left_inj, String.toList_inj]

theorem codeFile_js (cwd : File) (name : String) :
    ∃ dirs leaf, codeFile cwd name = ⟨dirs ++ [leaf ++ ".js".toList]⟩ := by
  have hpath : ∃ path, codePath name = path ++ ".js".toList := by
    unfold codePath Path.join fileName
    split
    · exact ⟨_, rfl⟩
    · split
      · exact ⟨_, (List.append_assoc ..).symm⟩
      · exact ⟨codeDir ++ '/' :: name.toList, by simp⟩
  obtain ⟨path, hpath⟩ := hpath
  rw [codeFile, hpath]
  exact Path.resolve_append (fun _ => leaf_js) path

theorem codeFile_ne_gitignore : codeFile cwd name ≠ gitignore cwd := by
  have hleaf : Path.Leaf ".gitignore".toList := by constructor <;> decide
  obtain ⟨dirs, leaf, hfile⟩ := codeFile_js cwd name
  rw [hfile, gitignore, Path.resolve_join_leaf hleaf (by decide)]
  intro he
  have hname : leaf ++ ".js".toList = ".gitignore".toList :=
    (List.cons.inj (List.append_inj' (congrArg File.components he) rfl).2).1
  have hlast : (leaf ++ ".js".toList).getLast? = some 's' := by simp
  rw [hname] at hlast
  exact absurd hlast (by decide)

section CheckFs

@[simp] theorem checkFs_cwd : (checkFs fs io).cwd = fs.cwd := by
  unfold checkFs
  split <;> simp

theorem checkFs_files {file : File} (h : file ≠ gitignore fs.cwd) :
    (checkFs fs io).files file = fs.files file := by
  unfold checkFs
  split
  · rfl
  · exact write_of_ne h

theorem checkFs_calls : ∃ c cs, (checkFs fs io).calls = fs.calls ++ c :: cs ∧
    ∀ file, .write file ∈ c :: cs ∨ .read file ∈ c :: cs ∨ .remove file ∈ c :: cs →
      file = gitignore fs.cwd := by
  unfold checkFs
  split
  · exact ⟨_, [], rfl, by simp⟩
  · rw [write_calls (by decide)]
    refine ⟨.exists codeDir, [.createDirAll codeDir, .write (gitignore fs.cwd)], ?_, by simp⟩
    simp [call, gitignore, FileSystem.resolve]

theorem checkFs_resolve : (checkFs fs io).resolve (codePath name) = codeFile fs.cwd name := by
  simp [FileSystem.resolve, codeFile]

end CheckFs

section Upload

theorem upload_invalid (h : validName name = false) :
    uploadWorkerCode fs io name code = (fs, .error (.invalidName name)) := by
  simp [uploadWorkerCode, h]

theorem upload_valid (h : validName name = true) :
    (uploadWorkerCode fs io name code).1 =
      ((checkFs fs io).write (codePath name) code io.write).1 := by
  simp only [uploadWorkerCode, h, if_true]
  split <;> simp [*]

theorem upload_ok (h : (uploadWorkerCode fs io name code).2 = .ok ()) :
    validName name = true ∧
      (uploadWorkerCode fs io name code).1.files (codeFile fs.cwd name) = some code := by
  unfold uploadWorkerCode at h ⊢
  split at h
  · rename_i hv
    refine ⟨hv, ?_⟩
    split at h
    · rename_i fs' hw
      have := @write_ok (checkFs fs io) (codePath name) code io.write
        (hasNul_codePath hv) (by rw [hw])
      simpa [hv, hw, checkFs_resolve] using this
    · cases h
  · cases h

theorem upload_cwd : (uploadWorkerCode fs io name code).1.cwd = fs.cwd := by
  cases hv : validName name with
  | false => rw [upload_invalid hv]
  | true => simp [upload_valid hv]

theorem upload_files_of_ne {file : File} (h : file ≠ codeFile fs.cwd name)
    (hg : file ≠ gitignore fs.cwd) :
    (uploadWorkerCode fs io name code).1.files file = fs.files file := by
  cases hv : validName name with
  | false => rw [upload_invalid hv]
  | true =>
    rw [upload_valid hv, write_of_ne (by rwa [checkFs_resolve]), checkFs_files hg]

theorem upload_changed {file : File} (hg : file ≠ gitignore fs.cwd)
    (h : (uploadWorkerCode fs io name code).1.files file ≠ fs.files file) :
    file = codeFile fs.cwd name ∧
      (uploadWorkerCode fs io name code).1.files file = some (io.write.written code) := by
  cases hv : validName name with
  | false => exact absurd (by rw [upload_invalid hv]) h
  | true =>
    rw [upload_valid hv] at h ⊢
    rw [← @checkFs_files fs io file hg] at h
    obtain ⟨hfile, hw⟩ := write_changed h
    exact ⟨hfile.trans checkFs_resolve, hw⟩

end Upload

section Remove

theorem remove_cwd : (removeWorkerCode fs io name).cwd = fs.cwd := by
  simp [removeWorkerCode]

theorem remove_files_of_ne {file : File} (h : file ≠ codeFile fs.cwd name)
    (hg : file ≠ gitignore fs.cwd) : (removeWorkerCode fs io name).files file = fs.files file := by
  rw [removeWorkerCode, remove_of_ne (by rwa [checkFs_resolve]), checkFs_files hg]

theorem remove_changed {file : File} (hg : file ≠ gitignore fs.cwd)
    (h : (removeWorkerCode fs io name).files file ≠ fs.files file) :
    file = codeFile fs.cwd name ∧ (removeWorkerCode fs io name).files file = none := by
  rw [removeWorkerCode, remove_files, checkFs_files hg, checkFs_resolve] at h ⊢
  obtain ⟨hcond, -⟩ := ite_ne_right_iff.mp h
  rw [if_pos hcond]
  simp only [Bool.and_eq_true, decide_eq_true_eq] at hcond
  exact ⟨hcond.2.symm, rfl⟩

end Remove

section Get

theorem get_cwd : (getWorkerCode fs io name).1.cwd = fs.cwd := by
  simp [getWorkerCode]

theorem get_files {file : File} (hg : file ≠ gitignore fs.cwd) :
    (getWorkerCode fs io name).1.files file = fs.files file := by
  simp [getWorkerCode, checkFs_files hg]

theorem get_eq : (getWorkerCode fs io name).2 =
    if io.ok && !hasNul (codePath name) then
      (fs.files (codeFile fs.cwd name)).bind String.fromUTF8?
    else none := by
  cases hn : hasNul (codePath name) <;> cases hok : io.ok <;>
    simp [getWorkerCode, FileSystem.read, hn, hok, checkFs_resolve, checkFs_files codeFile_ne_gitignore]

theorem get_valid (h : validName name = true) (hok : io.ok = true) :
    (getWorkerCode fs io name).2 = (fs.files (codeFile fs.cwd name)).bind String.fromUTF8? := by
  simp [get_eq, hasNul_codePath h, hok]

end Get

end CodeStore

namespace StoreOp

open CodeStore

variable {fs : FileSystem} {io : Io} {op : StoreOp} {ops : List StoreOp}

def calls (fs : FileSystem) (io : Io) (op : StoreOp) : List Call :=
  (op.run { fs with calls := [] } io).calls

def Touches (fs : FileSystem) (io : Io) (op : StoreOp) (file : File) : Prop :=
  .write file ∈ op.calls fs io ∨ .read file ∈ op.calls fs io ∨ .remove file ∈ op.calls fs io

/-- Besides the `.gitignore` of `check_fs`, every file touched is an entry of
`.serverlessd/workers/`; different names touch different files; and names that an
upload does not accept are refused before any call. -/
structure Confined (ops : List StoreOp) : Prop where
  entry : ∀ op ∈ ops, ∀ fs io file, op.Touches fs io file → file ≠ gitignore fs.cwd →
    ∃ leaf, file = child fs.cwd leaf
  distinct : ∀ op ∈ ops, ∀ op' ∈ ops, ∀ fs io file, op.Touches fs io file →
    op'.Touches fs io file → file ≠ gitignore fs.cwd → op.name = op'.name
  refused : ∀ op ∈ ops, validName op.name = false → ∀ fs io, op.calls fs io = []

theorem calls_upload_invalid {name : String} {code : ByteArray} (h : validName name = false) :
    (upload name code).calls fs io = [] := by
  simp [calls, run, upload_invalid h]

theorem touches_of_valid (h : validName op.name = true) {file : File}
    (ht : op.Touches fs io file) : file = codeFile fs.cwd op.name ∨ file = gitignore fs.cwd := by
  have hcalls : ∃ last, op.calls fs io = (checkFs { fs with calls := [] } io).calls ++ [last] ∧
      (last = .write (codeFile fs.cwd op.name) ∨ last = .read (codeFile fs.cwd op.name) ∨
        last = .remove (codeFile fs.cwd op.name)) := by
    cases op with
    | upload name code =>
      have h : validName name = true := h
      refine ⟨_, ?_, .inl rfl⟩
      rw [calls, run, upload_valid h, write_calls (hasNul_codePath h), checkFs_resolve]
      rfl
    | get name =>
      refine ⟨_, (read_calls (hasNul_codePath h)).trans ?_, .inr (.inl rfl)⟩
      rw [checkFs_resolve]
    | remove name =>
      refine ⟨_, (remove_calls (hasNul_codePath h)).trans ?_, .inr (.inr rfl)⟩
      rw [checkFs_resolve]
  obtain ⟨last, hcalls, hlast⟩ := hcalls
  obtain ⟨c, cs, hcheck, hgit⟩ := @checkFs_calls { fs with calls := [] } io
  rw [hcheck, List.nil_append] at hcalls
  simp only [Touches, hcalls, List.mem_append, List.mem_singleton] at ht
  have := hgit file
  grind

theorem calls_ne_nil (h : op.isUpload = false) : op.calls fs io ≠ [] := by
  obtain ⟨c, cs, hcheck, -⟩ := @checkFs_calls { fs with calls := [] } io
  cases op with
  | upload => cases h
  | get name =>
    simp only [calls, run, getWorkerCode, FileSystem.read]
    split <;> simp [hcheck, call]
  | remove name =>
    simp only [calls, run, removeWorkerCode, FileSystem.remove]
    split
    · simp [hcheck]
    · split <;> simp [hcheck, call, put]

/-- The store keeps to its directory exactly as long as the names to read and to remove
are valid. -/
theorem confined_iff (ops : List StoreOp) :
    Confined ops ↔ ∀ op ∈ ops, op.isUpload = true ∨ validName op.name = true := by
  constructor
  · intro h op hop
    cases hu : op.isUpload with
    | true => exact .inl rfl
    | false =>
      refine .inr (Bool.of_not_eq_false fun hv => ?_)
      exact calls_ne_nil hu (h.refused op hop hv ⟨⟨[]⟩, fun _ => none, []⟩ {})
  · intro h
    have hrefused : ∀ op ∈ ops, validName op.name = false → ∀ fs io, op.calls fs io = [] := by
      intro op hop hv fs io
      cases op with
      | upload name code => exact calls_upload_invalid hv
      | get | remove =>
        rcases h _ hop with hu | hn
        · cases hu
        · simp [hv] at hn
    have hvalid : ∀ op ∈ ops, ∀ fs io file, op.Touches fs io file →
        validName op.name = true := by
      intro op hop fs io file ht
      refine Bool.of_not_eq_false fun hv => ?_
      simp [Touches, hrefused op hop hv] at ht
    refine ⟨?_, ?_, hrefused⟩
    · intro op hop fs io file ht hg
      have hv := hvalid op hop fs io file ht
      exact ⟨_, ((touches_of_valid hv ht).resolve_right hg).trans (codeFile_of_valid hv)⟩
    · intro op hop op' hop' fs io file ht ht' hg
      have hv := hvalid op hop fs io file ht
      have hv' := hvalid op' hop' fs io file ht'
      have hf := (touches_of_valid hv ht).resolve_right hg
      have hf' := (touches_of_valid hv' ht').resolve_right hg
      exact (codeFile_inj hv hv').mp (hf.symm.trans hf')

theorem get_not_confined :
    let fs : FileSystem := ⟨⟨["srv".toList]⟩, fun _ => none, []⟩
    (get "/tmp/x").Touches fs {} ⟨["tmp".toList, "x.js".toList]⟩ ∧
      (get "a").Touches fs {} (codeFile fs.cwd "a") ∧
      (get "./a").Touches fs {} (codeFile fs.cwd "a") ∧
      ¬ Confined [get "/tmp/x"] ∧ ¬ Confined [get "a", get "./a"] := by
  refine ⟨.inr (.inl (by decide)), .inr (.inl (by decide)), .inr (.inl (by decide)), ?_, ?_⟩
  · intro h
    exact absurd (h.refused _ List.mem_cons_self (by decide) ⟨⟨[]⟩, fun _ => none, []⟩ {})
      (by decide)
  · intro h
    exact absurd (h.distinct (get "a") (by simp) (get "./a") (by simp) ⟨⟨[]⟩, fun _ => none, []⟩ {}
      (codeFile ⟨[]⟩ "a") (.inr (.inl (by decide))) (.inr (.inl (by decide))) (by decide))
      (by decide)

end StoreOp

end Serverlessd
