import Serverlessd.Runtime.Serverless.Order

open FileSystem

namespace Serverlessd

def Op.rewrites (name : String) : Op → Bool
  | .uploadWorker other _ => other = name
  | .removeWorker other => other = name
  | .createWorker _ | .sendHttpToWorker _ _ => false

def Op.unlinks (dir : File) (io : Io) (name : String) : Op → Bool
  | .removeWorker other => io.ok && !hasNul (CodeStore.codePath other) &&
    CodeStore.codeFile dir other = CodeStore.codeFile dir name
  | _ => false

namespace CodeStore

variable {fs : FileSystem} {io : Io} {op : Op} {name : String}

theorem run_cwd : (op.run fs io).1.cwd = fs.cwd := by
  cases op with
  | createWorker => exact get_cwd
  | uploadWorker => exact upload_cwd
  | removeWorker => exact remove_cwd
  | sendHttpToWorker => rfl

theorem run_files (hv : validName name = true) (hn : op.rewrites name = false) :
    (op.run fs io).1.files (codeFile fs.cwd name) =
      if op.unlinks fs.cwd io name then none else fs.files (codeFile fs.cwd name) := by
  have hg : codeFile fs.cwd name ≠ gitignore fs.cwd := codeFile_ne_gitignore
  cases op with
  | createWorker => exact get_files hg
  | uploadWorker other code =>
    have hne : other ≠ name := by simpa [Op.rewrites] using hn
    cases ho : validName other with
    | false => simp [Op.run, Op.unlinks, upload_invalid ho]
    | true => exact upload_files_of_ne (fun he => hne ((codeFile_inj hv ho).mp he).symm) hg
  | removeWorker other =>
    simp only [Op.run, removeWorkerCode, remove_files, checkFs_resolve, checkFs_files hg, Op.unlinks]
    rfl
  | sendHttpToWorker => rfl

end CodeStore

namespace Runtime

variable {s : Runtime} {c : Config} {as : List RuntimeAct} {fs : FileSystem} {call : Nat}
variable {name : String} {code : ByteArray} {pre post : List Processed} {e : Processed}

def rewrites (s : Runtime) (name : String) (e : Processed) : Bool :=
  (s.opOf e.call).any (Op.rewrites name)

def unlinks (s : Runtime) (name : String) (e : Processed) : Bool :=
  (s.opOf e.call).any (Op.unlinks s.fs.cwd e.io name)

/-- The upload was processed and stored its bytes; and as long as the name was not uploaded
or removed again, it is read back as a text with these bytes. -/
def Stored (s : Runtime) (call : Nat) (name : String) (code : ByteArray) : Prop :=
  ∃ pre e post, s.log = pre ++ e :: post ∧ e.call = call ∧
    e.fs.files (CodeStore.codeFile e.fs.cwd name) = some code ∧
    (post.any (s.rewrites name) = false → ∃ text : String, text.toUTF8 = code ∧
      ∀ io : Io, io.ok = true → (CodeStore.getWorkerCode s.fs io name).2 = some text)

def Kept (s : Runtime) (call : Nat) (name : String) (code : ByteArray) : Prop :=
  ∃ pre e post, s.log = pre ++ e :: post ∧ e.call = call ∧
    (post.any (s.rewrites name) = false →
      code.IsValidUTF8 ∧ post.any (s.unlinks name) = false)

theorem Sequenced.cwd (h : s.Sequenced fs) (hlog : s.log = pre ++ post) :
    (stored fs pre).cwd = fs.cwd := by
  induction pre using List.reverseRecOn generalizing post with
  | nil => rfl
  | append_singleton pre e ih =>
    have hlog : s.log = pre ++ e :: post := by simpa using hlog
    obtain ⟨op, -, hfs, -⟩ := h.replayed.log pre e post hlog
    rw [stored_concat, hfs]
    exact CodeStore.run_cwd.trans (ih hlog)

theorem Sequenced.files (h : s.Sequenced fs) (hv : validName name = true) (rest : List Processed)
    (hlog : s.log = pre ++ e :: (post ++ rest)) (hn : post.any (s.rewrites name) = false) :
    (stored fs (pre ++ e :: post)).files (CodeStore.codeFile fs.cwd name) =
      if post.any (s.unlinks name) then none else e.fs.files (CodeStore.codeFile fs.cwd name) := by
  have hcwd : s.fs.cwd = fs.cwd := by
    rw [h.replayed.last]
    exact h.cwd (List.append_nil _).symm
  induction post using List.reverseRecOn generalizing rest with
  | nil => simp
  | append_singleton post x ih =>
    have hlog : s.log = pre ++ e :: (post ++ x :: rest) := by simpa using hlog
    have hlog' : s.log = (pre ++ e :: post) ++ x :: rest := by simpa using hlog
    obtain ⟨op, hop, hfs, -⟩ := h.replayed.log _ x rest hlog'
    simp only [List.any_append, List.any_cons, List.any_nil, Bool.or_false, Bool.or_eq_false_iff] at hn
    have hx : op.rewrites name = false := by simpa [rewrites, hop] using hn.2
    have hstep := @CodeStore.run_files (stored fs (pre ++ e :: post)) x.io op name hv hx
    rw [h.cwd hlog', ← hfs, ih _ hlog hn.1] at hstep
    rw [← List.cons_append, ← List.append_assoc, stored_concat, hstep]
    simp only [List.any_append, List.any_cons, List.any_nil, Bool.or_false, unlinks, hop, hcwd,
      Option.any_some]
    cases post.any (s.unlinks name) <;> cases op.unlinks fs.cwd x.io name <;> rfl

theorem Sequenced.split_unique (h : s.Sequenced fs) {pre' post' : List Processed} {e' : Processed}
    (hlog : s.log = pre ++ e :: post) (hlog' : s.log = pre' ++ e' :: post')
    (hcall : e'.call = e.call) : pre = pre' ∧ e = e' ∧ post = post' := by
  have hnodup : (s.log.map Processed.call).Nodup := (List.nodup_append.mp h.ordered.nodup).1
  rw [hlog, List.map_append, List.map_cons, List.nodup_middle, List.nodup_cons, List.mem_append] at hnodup
  refine (List.append_cons_inj_of_notMem (fun hm => ?_) fun hm => ?_).mp (hlog.symm.trans hlog')
  · exact hnodup.1 (.inl (hcall ▸ List.mem_map_of_mem hm))
  · exact hnodup.1 (.inr (hcall ▸ List.mem_map_of_mem hm))

theorem Sequenced.uploaded (h : s.Sequenced fs) {answer : Answer}
    (hret : .returned call answer ∈ s.history) (hop : s.opOf call = some (.uploadWorker name code))
    (hnone : uploadResult answer = none) (hlog : s.log = pre ++ e :: post) (hcall : e.call = call) :
    validName name = true ∧ e.fs.files (CodeStore.codeFile fs.cwd name) = some code := by
  have hplaced : call ∈ s.order := by
    simp [order, hlog, hcall]
  have hother : ∀ {op : Op}, s.opOf call = some op → op = .uploadWorker name code :=
    fun ho => Option.some.inj (ho.symm.trans hop)
  obtain hr | ⟨-, other, ho⟩ := h.heard.replied call answer hret
  · cases answer with
    | uploaded result =>
      obtain ⟨pre', e', post', other, bytes, hlog', hcall', ho, rfl⟩ :=
        h.answered.uploaded call result hr
      obtain ⟨rfl, rfl⟩ := Op.uploadWorker.inj (hother ho)
      obtain ⟨rfl, rfl, rfl⟩ := h.split_unique hlog hlog' (hcall'.trans hcall.symm)
      obtain ⟨op, hop', hfs, -⟩ := h.replayed.log pre e post hlog
      obtain rfl := hother (hcall ▸ hop')
      have hok : (CodeStore.uploadWorkerCode (stored fs pre) e.io other bytes).2 = .ok () := by
        revert hnone
        cases (CodeStore.uploadWorkerCode (stored fs pre) e.io other bytes).2 with
        | ok => exact fun _ => rfl
        | error err => exact fun hn => by cases hn
      obtain ⟨hv, hfile⟩ := CodeStore.upload_ok hok
      rw [h.cwd hlog] at hfile
      exact ⟨hv, hfs ▸ hfile⟩
    | created result =>
      obtain ⟨⟨other, ho⟩, -⟩ := h.answered.created call result hr
      cases hother ho
    | removed => exact absurd hr (h.answered.removed call)
    | http body =>
      obtain ⟨pod, wrk, ho⟩ := h.answered.http call body hr
      cases hother ho
    | dropped =>
      obtain ⟨pod, wrk, ho⟩ | ⟨hnot, -⟩ := h.answered.dropped call hr
      · cases hother ho
      · exact absurd hplaced hnot
  · cases hother ho

theorem get_of_files (hv : validName name = true) {content : Option ByteArray}
    (hf : fs.files (CodeStore.codeFile fs.cwd name) = content) (io : Io) (hok : io.ok = true) :
    (CodeStore.getWorkerCode fs io name).2 = content.bind String.fromUTF8? := by
  rw [CodeStore.get_valid hv hok, hf]

/-- A success of `upload_worker` means what it says exactly if the message was processed,
and its bytes can be read back. -/
theorem acknowledged_iff (h : (machine c).Run as s) {answer : Answer}
    (hret : .returned call answer ∈ s.history) (hop : s.opOf call = some (.uploadWorker name code))
    (hnone : uploadResult answer = none) : s.Stored call name code ↔ s.Kept call name code := by
  have hs := sequenced_run h
  have hfinal : ∀ {pre e post}, s.log = pre ++ e :: post → e.call = call →
      post.any (s.rewrites name) = false → s.fs.files (CodeStore.codeFile s.fs.cwd name) =
        if post.any (s.unlinks name) then none else some code := by
    intro pre e post hlog hcall hn
    obtain ⟨hv, hfile⟩ := hs.uploaded hret hop hnone hlog hcall
    have hlast := hs.files hv [] (by simpa using hlog) hn
    rw [← hlog, ← hs.replayed.last, hfile] at hlast
    rwa [hs.replayed.last, hs.cwd (List.append_nil _).symm, ← hs.replayed.last]
  constructor
  · rintro ⟨pre, e, post, hlog, hcall, -, hread⟩
    refine ⟨pre, e, post, hlog, hcall, fun hn => ?_⟩
    obtain ⟨hv, -⟩ := hs.uploaded hret hop hnone hlog hcall
    obtain ⟨text, rfl, hget⟩ := hread hn
    refine ⟨text.isValidUTF8, Bool.of_not_eq_true fun hany => ?_⟩
    have hgone := get_of_files hv (hfinal hlog hcall hn) ({} : Io) rfl
    simp [hget {} rfl, hany] at hgone
  · rintro ⟨pre, e, post, hlog, hcall, hkept⟩
    obtain ⟨hv, hfile⟩ := hs.uploaded hret hop hnone hlog hcall
    have hcwd : e.fs.cwd = (start c).fs.cwd := by
      rw [← @stored_concat _ pre e]
      exact hs.cwd (by simpa using hlog)
    refine ⟨pre, e, post, hlog, hcall, hcwd ▸ hfile, fun hn => ?_⟩
    obtain ⟨htext, hany⟩ := hkept hn
    refine ⟨String.fromUTF8 code htext, rfl, fun io hok => ?_⟩
    rw [get_of_files hv (hfinal hlog hcall hn) io hok, hany]
    simp [String.fromUTF8?, htext]

def upload (code : ByteArray) : List RuntimeAct :=
  [.issue 0 (.uploadWorker "b" code), .enqueue 0, .recv {}, .ret 0]

theorem acknowledged_iff_upload :
    ∃ s, (machine oneWorker).Run (upload "x".toUTF8) s ∧ s.Stored 0 "b" "x".toUTF8 := by
  obtain ⟨s, hs, hret, hop, e, hlog, hcall⟩ : ∃ s, (machine oneWorker).Run (upload "x".toUTF8) s ∧
      .returned 0 (.uploaded none) ∈ s.history ∧ s.opOf 0 = some (.uploadWorker "b" "x".toUTF8) ∧
      ∃ e, s.log = [] ++ e :: [] ∧ e.call = 0 := ⟨_, rfl, by decide, rfl, _, rfl, rfl⟩
  refine ⟨s, hs, (acknowledged_iff hs hret hop rfl).mpr ⟨[], e, [], hlog, hcall, fun _ => ⟨?_, rfl⟩⟩⟩
  exact "x".isValidUTF8

theorem success_not_stored :
    (∃ s, (machine oneWorker).Run [.issue 0 (.uploadWorker "b" "x".toUTF8), .enqueue 0, .serverExit,
        .ret 0] s ∧ .returned 0 .dropped ∈ s.history ∧ uploadResult .dropped = none ∧
        s.opOf 0 = some (.uploadWorker "b" "x".toUTF8) ∧ ¬ s.Stored 0 "b" "x".toUTF8) ∧
    ∃ s, (machine oneWorker).Run (upload ⟨#[255]⟩) s ∧ .returned 0 (.uploaded none) ∈ s.history ∧
      s.opOf 0 = some (.uploadWorker "b" ⟨#[255]⟩) ∧ ¬ s.Stored 0 "b" ⟨#[255]⟩ := by
  constructor
  · obtain ⟨s, hs, hret, hop, hlog⟩ : ∃ s, (machine oneWorker).Run [.issue 0 (.uploadWorker "b"
        "x".toUTF8), .enqueue 0, .serverExit, .ret 0] s ∧ .returned 0 .dropped ∈ s.history ∧
        s.opOf 0 = some (.uploadWorker "b" "x".toUTF8) ∧ s.log = [] := ⟨_, rfl, by decide, rfl, rfl⟩
    refine ⟨s, hs, hret, rfl, hop, fun ⟨pre, e, post, he, _⟩ => ?_⟩
    simp [hlog] at he
  · obtain ⟨s, hs, hret, hop, hlog⟩ : ∃ s, (machine oneWorker).Run (upload ⟨#[255]⟩) s ∧
        .returned 0 (.uploaded none) ∈ s.history ∧ s.opOf 0 = some (.uploadWorker "b" ⟨#[255]⟩) ∧
        s.log.length = 1 := ⟨_, rfl, by decide, rfl, rfl⟩
    refine ⟨s, hs, hret, hop, fun ⟨pre, e, post, he, _, _, hread⟩ => ?_⟩
    obtain rfl : post = [] := by
      rw [he, List.length_append, List.length_cons] at hlog
      exact List.length_eq_zero_iff.mp (by omega)
    obtain ⟨text, htext, -⟩ := hread rfl
    have htext : ByteArray.IsValidUTF8 ⟨#[255]⟩ := htext ▸ text.isValidUTF8
    exact absurd htext (by decide)

end Runtime

end Serverlessd
