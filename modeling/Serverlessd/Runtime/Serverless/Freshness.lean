import Serverlessd.Runtime.Serverless.Isolation
import Serverlessd.Runtime.Serverless.Linear

namespace Serverlessd

namespace CodeMap

variable {m : CodeMap} {name : String} {opOf : Nat → Option Op} {calls : List Nat} {call : Nat}

def changeOf (opOf : Nat → Option Op) (name : String) (call : Nat) : Option (Option ByteArray) :=
  (opOf call).bind (change name)

theorem exists_last_change (hmem : call ∈ calls) (hc : (changeOf opOf name call).isSome) :
    ∃ pre last post, calls = pre ++ last :: post ∧ (changeOf opOf name last).isSome ∧
      (∀ k ∈ post, changeOf opOf name k = none) ∧
      changeOf opOf name last = some (m.after (calls.filterMap opOf) name) := by
  induction calls using List.reverseRecOn with
  | nil => cases hmem
  | append_singleton calls last ih =>
    have hafter : ∀ {x}, changeOf opOf name last = x →
        m.after ((calls ++ [last]).filterMap opOf) name = x.getD (m.after (calls.filterMap opOf) name) := by
      rintro x rfl
      rw [List.filterMap_append, changeOf]
      cases ho : opOf last with
      | none => simp [ho]
      | some op => simp [ho, after_concat, apply]
    cases hl : changeOf opOf name last with
    | some code =>
      exact ⟨calls, last, [], rfl, by rw [hl]; rfl, by simp, by rw [hl, hafter hl]; rfl⟩
    | none =>
      have hmem : call ∈ calls := by
        refine (List.mem_append.mp hmem).resolve_right fun he => ?_
        rw [List.mem_singleton.mp he, hl] at hc
        cases hc
      obtain ⟨pre, k, post, rfl, hk, hpost, hcode⟩ := ih hmem
      refine ⟨pre, k, post ++ [last], by simp, hk, fun j hj => ?_, by rw [hcode, hafter hl]; rfl⟩
      obtain hj | hj := List.mem_append.mp hj
      · exact hpost j hj
      · rw [List.mem_singleton.mp hj, hl]

theorem upload_of_changeOf {code : ByteArray} (h : changeOf opOf name call = some (some code)) :
    opOf call = some (.uploadWorker name code) := by
  obtain ⟨op, hop, hc⟩ := Option.bind_eq_some_iff.mp h
  cases op with
  | uploadWorker other payload =>
    obtain ⟨⟨rfl, -⟩, rfl⟩ : (other = name ∧ _) ∧ payload = code := by simpa [change] using hc
    exact hop
  | removeWorker => simp [change] at hc
  | createWorker | sendHttpToWorker => cases hc

theorem changeOf_route {route : GuardedRoute} {payload : ByteArray} (hv : validName name = true)
    (h : opOf call = some (route.op name payload)) : (changeOf opOf name call).isSome := by
  rw [changeOf, h]
  cases route <;> simp [GuardedRoute.op, change, hv]

end CodeMap

namespace Runtime

variable {c : Config} {s s' : Runtime} {a : RuntimeAct} {as : List RuntimeAct} {fs : FileSystem}
variable {i j n : Nat} {answer : Answer}

def Issues (s : Runtime) : Prop := ∀ n, .issued n ∈ s.history ↔ n < s.calls.length

/-- A message is handled after those whose calls had returned before it was issued. -/
def Causal (s : Runtime) : Prop := ∀ i j answer, [.returned i answer, .issued j].Sublist s.history →
  j ∈ s.log.map Processed.call → i ∈ s.log.map Processed.call

theorem issued_of_step (hs : Step s a s') :
    (s'.history = s.history ++ [.issued s.calls.length] ∧ s'.calls.length = s.calls.length + 1) ∨
    s'.calls.length = s.calls.length ∧ (s'.history = s.history ∨
      ∃ event, (∀ n, event ≠ .issued n) ∧ s'.history = s.history ++ [event]) := by
  cases hs with
  | issue => exact .inl ⟨rfl, by simp⟩
  | enqueue | refuse | abandonSending | abandonWaiting | ret =>
    refine .inr ⟨by simp [setStatus], .inr ⟨_, ?_, rfl⟩⟩
    simp
  | recv phase head hh => exact .inr (by cases hh <;> exact ⟨rfl, .inl rfl⟩)
  | failed => exact .inr ⟨by simp, .inl failed_history⟩
  | pod => exact .inr ⟨by simp [setPod], .inl (by rw [emit_history]; rfl)⟩
  | sent | noVacancy | allHalted | joined | shutdown | serverExit => exact .inr ⟨rfl, .inl rfl⟩

theorem issues_start (c : Config) : (start c).Issues := by
  intro n
  simp [start]

theorem Issues.step (h : s.Issues) (hs : Step s a s') : s'.Issues := by
  intro n
  obtain ⟨hhistory, hlen⟩ | ⟨hlen, hhistory | ⟨event, hne, hhistory⟩⟩ :=
    issued_of_step hs
  · rw [hhistory, hlen, List.mem_append, h n, List.mem_singleton, Nat.lt_succ_iff_lt_or_eq]
    simp
  · rw [hhistory, hlen, h n]
  · rw [hhistory, hlen, List.mem_append, h n, List.mem_singleton]
    exact or_iff_left fun he => hne n he.symm

theorem causal_start (c : Config) : (start c).Causal := by
  intro i j answer _ hj
  cases hj

theorem Causal.step (h : s.Causal) (hq : s.Sequenced fs) (hs : Step s a s') : s'.Causal := by
  intro i j answer hsub hj
  by_cases ha : ∃ io, a = .recv io
  · obtain ⟨io, rfl⟩ := ha
    cases hs with
    | @recv _ _ call trigger queue phase head hh =>
      obtain ⟨op, -, ht⟩ := hq.labelled.queue _ (head ▸ List.mem_cons_self)
      have hhistory : s'.history = s.history := by cases hh <;> rfl
      rw [hhistory] at hsub
      rw [(log_of_handled ht hh).1, List.map_append, List.mem_append] at hj ⊢
      obtain hj | hj := hj
      · exact .inl (h i j answer hsub hj)
      · -- the message is the first in the queue, and what came before it was taken from there
        obtain rfl := List.mem_singleton.mp hj
        have horder : s.order = s.log.map Processed.call ++ j :: queue.map Prod.fst := by
          simp [order, head]
        have hmem : i ∈ s.order :=
          hq.heard.placed (by simp [phase]) i answer (hsub.subset List.mem_cons_self)
        have hnodup : s.order.Nodup := hq.ordered.nodup
        have hpair : [i, j].Sublist s.order :=
          hq.ordered.realTime i j answer hsub hmem (show j ∈ s.order by simp [horder])
        rw [horder] at hnodup hpair
        exact .inl (Fifo.mem_left_of_pair hnodup hpair)
  · have hlog := (log_of_step hs fun io hio => ha ⟨io, hio⟩).1
    rw [hlog] at hj ⊢
    obtain ⟨c, hc, -⟩ := hq.ordered.left j (List.mem_append_left _ hj)
    have hlt : j < s.calls.length := by simpa [fifo] using (List.getElem?_eq_some_iff.mp hc).1
    refine h i j answer ?_ hj
    obtain ⟨hhistory, -⟩ | ⟨-, hhistory | ⟨event, hne, hhistory⟩⟩ := issued_of_step hs
    · rw [hhistory] at hsub
      refine (Fifo.pair_sublist_concat.mp hsub).resolve_right fun he => ?_
      exact Nat.ne_of_lt hlt (Fifo.Event.issued.inj he.2)
    · exact hhistory ▸ hsub
    · rw [hhistory] at hsub
      exact (Fifo.pair_sublist_concat.mp hsub).resolve_right fun he => hne j he.2.symm

theorem asks_step {ask : Nat × Op} (h : s.asks[n]? = some ask) (hs : Step s a s') :
    s'.asks[n]? = some ask := by
  by_cases ha : ∃ client op, a = .issue client op
  · obtain ⟨client, op, rfl⟩ := ha
    rw [asks_of_issue hs, List.getElem?_append_left (List.getElem?_eq_some_iff.mp h).1, h]
  · rw [asks_of_step hs fun client op he => ha ⟨client, op, he⟩, h]

end Runtime

namespace App

variable {srv : Server} {c : Config} {s t : App} {as bs : List AppAct} {i j k n pod wrk : Nat} {v : Visit}
  {name : String} {route : GuardedRoute} {answer : Answer} {task : WorkerTask} {calls : List Nat}

theorem causal_run (h : (machine srv c).Run as s) :
    s.runtime.Sequenced (Runtime.start c).fs ∧ s.runtime.Causal ∧ s.runtime.Issues := by
  refine runtime_invariant
    (P := fun s => s.Sequenced (Runtime.start c).fs ∧ s.Causal ∧ s.Issues) ?_ ?_ h
  · exact ⟨Runtime.sequenced_run Machine.run_nil, Runtime.causal_start c, Runtime.issues_start c⟩
  · rintro s a s' ⟨hq, hc, hi⟩ hs
    exact ⟨hq.step hs, hc.step hq hs, hi.step hs⟩

structure Extends (s t : App) : Prop where
  asks : ∀ (n : Nat) (ask : Nat × Op), s.runtime.asks[n]? = some ask → t.runtime.asks[n]? = some ask
  history : s.runtime.history <+: t.runtime.history
  visits : Continues s t

theorem Extends.step {a : AppAct} {u : App} (h : Extends s t) (hs : t.step srv a = some u) :
    Extends s u := by
  have hstep := step_sound hs
  have hvisits : Continues s u := by
    intro i v hv
    obtain ⟨w, hw, hreq, hnow⟩ := h.visits i v hv
    obtain ⟨x, hx, hreq', hnow'⟩ := hstep.continues i w hw
    exact ⟨x, hx, hreq'.trans hreq, hnow'.trans hnow⟩
  obtain hr | ⟨b, hb, -⟩ := hstep.runtime_step
  · exact ⟨hr ▸ h.asks, hr ▸ h.history, hvisits⟩
  · exact ⟨fun n ask hn => Runtime.asks_step (h.asks n ask hn) hb,
      h.history.trans (Runtime.history_of_step hb), hvisits⟩

theorem extends_of_run (h : (machine srv c).Run as s) (ht : (machine srv c).Run (as ++ bs) t) :
    Extends s t := by
  induction bs using List.reverseRecOn generalizing t with
  | nil =>
    rw [List.append_nil] at ht
    obtain rfl := h.unique ht
    exact ⟨fun _ _ => id, List.prefix_rfl, fun i v hv => ⟨v, hv, rfl, rfl⟩⟩
  | append_singleton bs b ih =>
    rw [← List.append_assoc] at ht
    obtain ⟨u, hu, hs⟩ := Machine.run_concat_iff.mp ht
    exact (ih hu).step hs

theorem returned_of_ok (h : (machine srv c).Run as s) (hv : s.visits[i]? = some v)
    (hroute : routeOf v.req.method v.req.path = .guarded route name)
    (hok : v.exchange.body = some .ok) : ∃ n payload answer,
      s.runtime.asks[n]? = some (i, route.op name payload) ∧
        .returned n answer ∈ s.runtime.history := by
  obtain ⟨l, hl, ha⟩ := (followed_run h).visits i v hv
  have hout := outcome_of_answered hl
  rw [Outcome, hroute] at hout
  generalize v.exchange = x at hout hok ha
  cases hout with
  | stopped =>
    cases hverdict : srv.verdict v.req v.now <;> simp [hverdict, Server.stopped] at hok
  | @handled n payload answer verdict returned =>
    exact ⟨n, payload, answer, (ha n _).mpr (by simp), Runtime.mem_history_of_returned returned⟩

theorem issued_later (h : (machine srv c).Run as s) (ht : (machine srv c).Run (as ++ bs) t)
    (hret : .returned n answer ∈ s.runtime.history) {op : Op}
    (hask : t.runtime.asks[k]? = some (j, op)) (hj : s.visits.length ≤ j) :
    [.returned n answer, .issued k].Sublist t.runtime.history := by
  have hext := extends_of_run h ht
  obtain ⟨tail, htail⟩ := hext.history
  have hlen : ∀ r : Runtime, r.asks.length = r.calls.length := fun r => List.length_map _
  have hlt := (List.getElem?_eq_some_iff.mp hask).1
  have hmem := ((causal_run ht).2.2 k).mpr (hlen t.runtime ▸ hlt)
  have hnot : .issued k ∉ s.runtime.history := by
    rw [(causal_run h).2.2 k]
    intro hk
    obtain ⟨⟨i, op'⟩, hi⟩ : ∃ ask, s.runtime.asks[k]? = some ask :=
      ⟨_, List.getElem?_eq_getElem (hlen s.runtime ▸ hk)⟩
    obtain ⟨rfl, -⟩ := Prod.mk.inj (Option.some.inj ((hext.asks k _ hi).symm.trans hask))
    exact absurd ((followed_run h).clients k i op' hi) (Nat.not_lt.mpr hj)
  rw [← htail] at hmem ⊢
  have hmem := (List.mem_append.mp hmem).resolve_left hnot
  exact (List.singleton_sublist.mpr hret).append (List.singleton_sublist.mpr hmem)

/-- In every run of the server, if its file system does not fail, the worker of a request that
arrives after an upload or a removal of its name was answered with success runs the code that was
uploaded last: it is that of the answered request or of one that was handled after it. -/
theorem fresh (h : (machine srv c).Run as s) (hv : s.visits[i]? = some v)
    (hroute : routeOf v.req.method v.req.path = .guarded route name)
    (hok : v.exchange.body = some .ok) (ht : (machine srv c).Run (as ++ bs) t)
    (hf : t.runtime.Faultless) (htask : t.runtime.taskOf pod wrk = some task)
    (hask : t.runtime.asks[task.call]? = some (j, .createWorker name)) (hj : s.visits.length ≤ j) :
    ∃ n payload pre m mid post code,
      t.runtime.asks[n]? = some (i, route.op name payload) ∧
      t.runtime.order = pre ++ m :: mid ++ task.call :: post ∧
      t.runtime.opOf m = some (.uploadWorker name code) ∧ String.fromUTF8? code = some task.source ∧
      (∀ k ∈ mid, CodeMap.changeOf t.runtime.opOf name k = none) ∧
      (m = n ∨ [n, m].Sublist t.runtime.order) := by
  obtain ⟨n, payload, answer, hn, hret⟩ := returned_of_ok h hv hroute hok
  obtain ⟨hq, hcausal, -⟩ := causal_run ht
  have hn := (extends_of_run h ht).asks n _ hn
  have hop := Runtime.opOf_of_asks hn
  have hcreate := Runtime.opOf_of_asks hask
  have hbefore := issued_later h ht hret hask hj
  obtain ⟨e, he, hcall, hsource⟩ := hq.labelled.taskStarted htask
  have hlog : task.call ∈ t.runtime.log.map Processed.call := hcall ▸ List.mem_map_of_mem he
  have hpair := hq.ordered.realTime n _ answer hbefore
    (List.mem_append_left _ (hcausal n _ answer hbefore hlog)) (List.mem_append_left _ hlog)
  have hpair : [n, task.call].Sublist t.runtime.order := hpair
  obtain ⟨calls, post, op, horder, hop', hread⟩ := hq.reads hf CodeMap.stores_ofFiles he
  rw [hcall] at horder hop'
  cases Option.some.inj (hcreate.symm.trans hop')
  rw [hsource] at hread
  have hnodup : t.runtime.order.Nodup := hq.ordered.nodup
  rw [horder] at hnodup hpair
  have hmem := Fifo.mem_left_of_pair hnodup hpair
  have hchange := CodeMap.changeOf_route (hf.op hcreate) hop
  obtain ⟨pre, m, mid, rfl, -, hmid, hm⟩ := CodeMap.exists_last_change hmem hchange
  obtain ⟨code, hcode, htext⟩ := Option.bind_eq_some_iff.mp hread
  have hupload := CodeMap.upload_of_changeOf (hm.trans (congrArg some hcode))
  refine ⟨n, payload, pre, m, mid, post, code, hn, horder, hupload, htext, hmid, ?_⟩
  obtain hpre | hpost := List.mem_append.mp hmem
  · rw [horder, List.append_assoc]
    exact .inr ((List.singleton_sublist.mpr hpre).append (List.singleton_sublist.mpr (by simp)))
  · obtain rfl | hpost := List.mem_cons.mp hpost
    · exact .inl rfl
    · rw [hmid n hpost] at hchange
      cases hchange

section Upload

deriving instance DecidableEq for Op

def getB : Request := { getWorker with path := ["worker", "b"] }

def uploadedRun : List AppAct :=
  [.request uploadX 0] ++ ([.enqueue 0, .recv {}, .ret 0] : List RuntimeAct).map .runtime ++ [.resume 0]

def createBRun : List AppAct :=
  [.request getB 0] ++
    ([.enqueue 1, .recv {}, .send, .pod 0 .recv, .send, .pod 0 .recv] : List RuntimeAct).map .runtime

theorem fresh_createBRun :
    ∃ t, (machine ⟨"secret", cryptoX⟩ emptyStore).Run (uploadedRun ++ createBRun) t ∧
      t.runtime.taskOf 0 0 = some ⟨"x", 1⟩ ∧
      ∃ n payload pre m mid post code, t.runtime.asks[n]? = some (0, .uploadWorker "b" payload) ∧
        t.runtime.order = pre ++ m :: mid ++ 1 :: post ∧
        t.runtime.opOf m = some (.uploadWorker "b" code) ∧ String.fromUTF8? code = some "x" ∧
        (∀ k ∈ mid, CodeMap.changeOf t.runtime.opOf "b" k = none) ∧
        (m = n ∨ [n, m].Sublist t.runtime.order) := by
  have hrun : ((machine ⟨"secret", cryptoX⟩ emptyStore).exec (start emptyStore) uploadedRun).any
      fun s => (s.visits.length = 1 && (s.visits[0]?).any fun v => v.req.method = .post &&
        v.req.path = ["_", "upload", "b"] && v.exchange.body = some .ok) &&
      ((machine ⟨"secret", cryptoX⟩ emptyStore).exec s createBRun).any fun t =>
        t.runtime.taskOf 0 0 = some ⟨"x", 1⟩ && t.runtime.asks[1]? = some (1, .createWorker "b") &&
        decide ((∀ c ∈ t.runtime.calls, c.op.Valid) ∧ ∀ e ∈ t.runtime.log, e.io.Succeeds) := by
    decide +kernel
  obtain ⟨s, hs, hrun⟩ := (Option.any_eq_true ..).mp hrun
  obtain ⟨huploaded, hcreated⟩ := (Bool.and_eq_true ..).mp hrun
  obtain ⟨t, hexec, hcreated⟩ := (Option.any_eq_true ..).mp hcreated
  simp only [Bool.and_eq_true, decide_eq_true_eq] at huploaded hcreated
  obtain ⟨hlen, hv⟩ := huploaded
  obtain ⟨v, hv, hreq⟩ := (Option.any_eq_true ..).mp hv
  simp only [Bool.and_eq_true, decide_eq_true_eq] at hreq
  obtain ⟨⟨hmethod, hpath⟩, hok⟩ := hreq
  obtain ⟨⟨htask, hask⟩, hcalls, hlog⟩ := hcreated
  have ht := Machine.run_append_iff.mpr ⟨s, hs, hexec⟩
  have hroute : routeOf v.req.method v.req.path = .guarded .upload "b" := by rw [hmethod, hpath]; rfl
  exact ⟨t, ht, htask, fresh hs hv hroute hok ht ⟨hcalls, hlog⟩ htask hask hlen.le⟩

end Upload

end App

end Serverlessd
