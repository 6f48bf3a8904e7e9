import Serverlessd.Runtime.Serverless.Freshness
import Serverlessd.Runtime.Serverless.Uploads

open FileSystem

namespace Serverlessd

namespace Runtime

variable {s : Runtime} {fs : FileSystem} {file : File} {bytes : ByteArray} {pre post : List Processed}

def Wrote (s : Runtime) (fs : FileSystem) (log : List Processed) (file : File) (bytes : ByteArray) : Prop :=
  ∃ pre e mid name code, log = pre ++ e :: mid ∧ s.opOf e.call = some (.uploadWorker name code) ∧
    validName name = true ∧ CodeStore.codeFile fs.cwd name = file ∧ bytes = e.io.write.written code ∧
    ∀ x ∈ mid, x.fs.files file = some bytes

theorem Wrote.keep {log : List Processed} (h : s.Wrote fs log file bytes) {e : Processed}
    (he : e.fs.files file = some bytes) : s.Wrote fs (log ++ [e]) file bytes := by
  obtain ⟨pre, e', mid, name, code, rfl, hop, hv, hfile, hbytes, hmid⟩ := h
  refine ⟨pre, e', mid ++ [e], name, code, by simp, hop, hv, hfile, hbytes, fun x hx => ?_⟩
  obtain hx | hx := List.mem_append.mp hx
  · exact hmid x hx
  · exact List.mem_singleton.mp hx ▸ he

theorem Sequenced.wrote (h : s.Sequenced fs) (hg : file ≠ CodeStore.gitignore fs.cwd)
    (hlog : s.log = pre ++ post) (hfile : (stored fs pre).files file = some bytes) :
    fs.files file = some bytes ∨ s.Wrote fs pre file bytes := by
  induction pre using List.reverseRecOn generalizing post with
  | nil => exact .inl hfile
  | append_singleton pre e ih =>
    have hlog : s.log = pre ++ e :: post := by simpa using hlog
    obtain ⟨op, hop, hfs, -⟩ := h.replayed.log pre e post hlog
    rw [stored_concat] at hfile
    have hcwd := h.cwd hlog
    by_cases hsame : e.fs.files file = (stored fs pre).files file
    · exact (ih hlog (hsame ▸ hfile)).imp_right fun hw => hw.keep hfile
    · -- the message changed the file, which it leaves in place only as an upload
      rw [hfs] at hsame hfile
      have hchange := CodeStore.run_changed (hcwd.symm ▸ hg) hsame
      cases op with
      | uploadWorker name code =>
        obtain ⟨hname, hbytes⟩ := hchange
        have hv : validName name = true := by
          by_contra hv
          rw [Bool.not_eq_true] at hv
          exact hsame (by simp [Op.run, CodeStore.upload_invalid hv])
        refine .inr ⟨pre, e, [], name, code, rfl, hop, hv, by rw [hname, hcwd], ?_, by simp⟩
        exact Option.some.inj (hfile.symm.trans hbytes)
      | removeWorker =>
        rw [hchange.2] at hfile
        cases hfile
      | createWorker | sendHttpToWorker => exact hchange.elim

theorem Sequenced.text (h : s.Sequenced fs) {e : Processed} {source : String}
    (hlog : s.log = pre ++ e :: post) (hsource : e.source = some source) : ∃ name bytes,
      s.opOf e.call = some (.createWorker name) ∧ String.fromUTF8? bytes = some source ∧
        (stored fs pre).files (CodeStore.codeFile fs.cwd name) = some bytes := by
  obtain ⟨op, hop, -, hread⟩ := h.replayed.log pre e post hlog
  rw [hsource] at hread
  cases op with
  | createWorker name =>
    rw [Op.run, CodeStore.get_eq, h.cwd hlog] at hread
    split at hread
    · obtain ⟨bytes, hbytes, htext⟩ := Option.bind_eq_some_iff.mp hread.symm
      exact ⟨name, bytes, hop, htext, hbytes⟩
    · cases hread
  | uploadWorker | removeWorker | sendHttpToWorker => cases hread

end Runtime

namespace App

variable {srv : Server} {c : Config} {s : App} {as : List AppAct} {pod wrk : Nat} {task : WorkerTask}

/-- The bytes are in the file of the name since the start, or since an upload that the middleware
permitted. -/
inductive Origin (srv : Server) (c : Config) (s : App) (log : List Processed) (name : String)
    (bytes : ByteArray) : Prop
  | initial (held : c.fs.files (CodeStore.codeFile c.fs.cwd name) = some bytes)
  | uploaded {pre mid : List Processed} {e : Processed} {i : Nat} {v : Visit} {other : String}
      {code : ByteArray} (split : log = pre ++ e :: mid)
      (asked : s.runtime.asks[e.call]? = some (i, .uploadWorker other code))
      (visit : s.visits[i]? = some v)
      (route : routeOf v.req.method v.req.path = .guarded .upload other)
      (permitted : srv.verdict v.req v.now = .handled code)
      (file : CodeStore.codeFile c.fs.cwd other = CodeStore.codeFile c.fs.cwd name)
      (same : validName name = true → other = name) (written : bytes = e.io.write.written code)
      (since : ∀ x ∈ mid, x.fs.files (CodeStore.codeFile c.fs.cwd name) = some bytes)

theorem upload_of_asks (h : (machine srv c).Run as s) {r i : Nat} {name : String} {code : ByteArray}
    (hr : s.runtime.asks[r]? = some (i, .uploadWorker name code)) : ∃ v, s.visits[i]? = some v ∧
      routeOf v.req.method v.req.path = .guarded .upload name ∧
      srv.verdict v.req v.now = .handled code := by
  obtain ⟨v, l, hv, hout, -, hmem⟩ := outcome_of_asks h hr
  refine ⟨v, hv, ?_⟩
  unfold Outcome at hout
  split at hout
  · rename_i route name' hroute
    obtain ⟨payload, hverdict, hop⟩ := op_of_outcome hout hmem
    cases route <;> cases hop
    exact ⟨hroute, hverdict⟩
  · generalize v.exchange = x at hout hmem
    cases hout <;> simp at hmem
  · obtain ⟨rfl, hx⟩ := hout
    simp [hx] at hmem

/-- In every run of the server, whichever calls to its file system fail, a worker runs the text of
one file: the bytes that were there at the start, or those that the last upload of it wrote before
the worker was created.  The middleware permitted that upload, which wrote all its bytes or, when it
failed, the first of them; and it was under the name of the worker, if this is a valid one. -/
theorem code_origin (h : (machine srv c).Run as s) (htask : s.runtime.taskOf pod wrk = some task) :
    ∃ pre e post name bytes, s.runtime.log = pre ++ e :: post ∧ e.call = task.call ∧
      s.runtime.opOf task.call = some (.createWorker name) ∧
      String.fromUTF8? bytes = some task.source ∧ Origin srv c s pre name bytes := by
  have hq := (causal_run h).1
  obtain ⟨e, he, hcall, hsource⟩ := hq.labelled.taskStarted htask
  obtain ⟨pre, post, hlog⟩ := List.append_of_mem he
  obtain ⟨name, bytes, hop, htext, hfile⟩ := hq.text hlog hsource
  refine ⟨pre, e, post, name, bytes, hlog, hcall, hcall ▸ hop, htext, ?_⟩
  have hcwd : (Runtime.start c).fs.cwd = c.fs.cwd := CodeStore.checkFs_cwd
  rw [hcwd] at hfile
  obtain hinit | ⟨pre, x, mid, other, code, hsplit, hup, hv, hother, hbytes, hmid⟩ :=
    hq.wrote (hcwd ▸ CodeStore.codeFile_ne_gitignore) hlog hfile
  · have hfiles := @CodeStore.checkFs_files c.fs c.io _ (@CodeStore.codeFile_ne_gitignore c.fs.cwd name)
    exact .initial (hfiles.symm.trans hinit)
  · obtain ⟨i, hasked⟩ := Runtime.asks_of_opOf hup
    obtain ⟨v, hvisit, hroute, hverdict⟩ := upload_of_asks h hasked
    rw [hcwd] at hother
    exact .uploaded hsplit hasked hvisit hroute hverdict hother
      (fun hn => (CodeStore.codeFile_inj hv hn).mp hother) hbytes hmid

def tornRun : List AppAct :=
  [.request uploadX 0, .runtime (.enqueue 0), .runtime (.recv { write := .failedAfter 0 })] ++ createBRun

theorem code_origin_tornRun :
    ∃ s, (machine ⟨"secret", cryptoX⟩ emptyStore).Run tornRun s ∧
      s.runtime.taskOf 0 0 = some ⟨"", 1⟩ ∧
      ∃ pre e post name bytes, s.runtime.log = pre ++ e :: post ∧ e.call = 1 ∧
        s.runtime.opOf 1 = some (.createWorker name) ∧ String.fromUTF8? bytes = some "" ∧
        Origin ⟨"secret", cryptoX⟩ emptyStore s pre name bytes := by
  have htorn : ((machine ⟨"secret", cryptoX⟩ emptyStore).exec (start emptyStore) tornRun).any
      fun s => s.runtime.taskOf 0 0 = some ⟨"", 1⟩ := by decide +kernel
  obtain ⟨s, hs, htask⟩ := (Option.any_eq_true ..).mp htorn
  have htask := of_decide_eq_true htask
  exact ⟨s, hs, htask, code_origin hs htask⟩

end App

end Serverlessd
