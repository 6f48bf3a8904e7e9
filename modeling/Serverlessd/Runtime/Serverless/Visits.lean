import Serverlessd.Runtime.Serverless.Provenance
import Serverlessd.Runtime.Serverless.Routes

namespace Serverlessd

namespace Runtime

variable {s s' : Runtime} {a : RuntimeAct} {call n i : Nat} {op : Op} {answer : Answer}
  {l : List (Nat × Op)}

def asks (s : Runtime) : List (Nat × Op) := s.calls.map fun c => (c.client, c.op)

def AsksFor (s : Runtime) (i : Nat) (l : List (Nat × Op)) : Prop :=
  ∀ n op, s.asks[n]? = some (i, op) ↔ (n, op) ∈ l

theorem opOf_of_asks (h : s.asks[n]? = some (i, op)) : s.opOf n = some op := by
  simp only [asks, List.getElem?_map, Option.map_eq_some_iff] at h
  obtain ⟨c, hc, he⟩ := h
  rw [opOf, hc, Option.map_some]
  exact congrArg some (Prod.mk.inj he).2

theorem asks_of_opOf (h : s.opOf n = some op) : ∃ i, s.asks[n]? = some (i, op) := by
  obtain ⟨call, hc, rfl⟩ := Option.map_eq_some_iff.mp h
  exact ⟨call.client, by simp [asks, hc]⟩

theorem asks_setStatus {status : Fifo.Status} : (s.setStatus call status).asks = s.asks := by
  refine List.ext_getElem? fun n => ?_
  simp only [asks, setStatus, List.getElem?_map, List.getElem?_modify]
  cases s.calls[n]? with
  | none => rfl
  | some c =>
    simp only [Option.map_eq_map, Option.map_some]
    split <;> rfl

theorem asks_of_issue (hs : Step s (.issue i op) s') : s'.asks = s.asks ++ [(i, op)] := by
  cases hs with
  | issue => simp [asks]

theorem asks_of_step (hs : Step s a s') (ha : ∀ i op, a ≠ .issue i op) : s'.asks = s.asks := by
  cases hs with
  | issue => exact absurd rfl (ha _ _)
  | enqueue | refuse | abandonSending | abandonWaiting | ret => exact asks_setStatus
  | recv phase head hh => cases hh <;> rfl
  | failed => simp [asks]
  | pod => simp [asks, setPod]
  | sent | noVacancy | allHalted | joined | shutdown | serverExit => rfl

theorem AsksFor.other (h : s.AsksFor i l) {j : Nat} {o : Option Op}
    (hasks : s'.asks = s.asks ++ o.toList.map fun op => (j, op)) (hj : i ≠ j) : s'.AsksFor i l := by
  intro n op
  rw [← h n op, hasks]
  cases o with
  | none => simp
  | some op' =>
    simp only [Option.toList_some, List.map_cons, List.map_nil, List.getElem?_concat_eq_some]
    simp [hj]

theorem AsksFor.self (h : s.AsksFor i l) {o : Option Op}
    (hasks : s'.asks = s.asks ++ o.toList.map fun op => (i, op)) :
    s'.AsksFor i (l ++ o.toList.map fun op => (s.asks.length, op)) := by
  intro n op
  rw [hasks, List.mem_append, ← h n op]
  cases o with
  | none => simp
  | some op' =>
    simp only [Option.toList_some, List.map_cons, List.map_nil, List.getElem?_concat_eq_some]
    simp [eq_comm]

theorem history_of_step (hs : Step s a s') : s.history <+: s'.history := by
  cases hs with
  | issue | enqueue | refuse | abandonSending | abandonWaiting | ret => exact List.prefix_append _ _
  | recv phase head hh => cases hh <;> exact List.prefix_rfl
  | failed => exact failed_history (s := s) ▸ List.prefix_rfl
  | @pod idx b p p' o => exact ⟨[], by rw [emit_history, List.append_nil]; rfl⟩
  | sent | noVacancy | allHalted | joined | shutdown | serverExit => exact List.prefix_rfl

theorem returned_step (h : s.returned call = some answer) (hs : Step s a s') :
    s'.returned call = some answer := by
  obtain ⟨tail, htail⟩ := history_of_step hs
  rw [returned, ← htail, List.findSome?_append]
  unfold returned at h
  rw [h]
  rfl

theorem mem_history_of_returned (h : s.returned call = some answer) :
    .returned call answer ∈ s.history := by
  obtain ⟨event, hm, he⟩ := List.exists_of_findSome?_eq_some h
  cases event with
  | returned c a =>
    obtain ⟨rfl, rfl⟩ : c = call ∧ a = answer := by simpa using he
    exact hm
  | issued | sent | abandoned => cases he

end Runtime

namespace App

variable {srv : Server} {c : Config} {s s' : App} {a : AppAct} {i j n : Nat} {v : Visit} {op : Op}
  {answer : Answer} {x : Exchange} {req : Request} {now : Nat} {l : List (Nat × Op)}

theorem Issued.asks (h : Issued s s' i x) :
    s'.runtime.asks = s.runtime.asks ++ x.call.toList.map fun op => (i, op) := by
  unfold Issued at h
  split at h
  · rename_i hop
    simp [h, hop]
  · rename_i op hop
    simp [Runtime.asks_of_issue h, hop]

theorem Issued.returned (h : Issued s s' i x) (hr : s.runtime.returned n = some answer) :
    s'.runtime.returned n = some answer := by
  unfold Issued at h
  split at h
  · rwa [h]
  · exact Runtime.returned_step hr h

theorem Step.returned (hs : Step 0 srv s s' a) (hr : s.runtime.returned n = some answer) :
    s'.runtime.returned n = some answer := by
  cases hs with
  | request _ issued => exact issued.returned hr
  | resume _ _ _ _ issued => exact issued.returned hr
  | runtime _ _ step => exact Runtime.returned_step hr step

inductive Answered (srv : Server) (s : Runtime) (req : Request) (now : Nat) :
    List (Nat × Op) → Exchange → Prop
  | begun : Answered srv s req now [] (srv.service req now)
  | resumed {l : List (Nat × Op)} {x : Exchange} {n : Nat} {op : Op} {answer : Answer}
      (h : Answered srv s req now l x) (call : x.call = some op)
      (returned : s.returned n = some answer) :
      Answered srv s req now (l ++ [(n, op)]) (Handler.resume x op answer)

/-- The calls of the visit are those that its exchange has the answers of, and the one that it
waits for. -/
def Follows (srv : Server) (s : App) (i : Nat) (v : Visit) : Prop :=
  ∃ l, Answered srv s.runtime v.req v.now l v.exchange ∧
    s.runtime.AsksFor i (l ++ v.exchange.call.toList.map fun op => (v.call, op))

structure Followed (srv : Server) (s : App) : Prop where
  clients : ∀ (n i : Nat) (op : Op), s.runtime.asks[n]? = some (i, op) → i < s.visits.length
  visits : ∀ (i : Nat) (v : Visit), s.visits[i]? = some v → Follows srv s i v

theorem answered_step (hr : ∀ n answer, s.runtime.returned n = some answer →
    s'.runtime.returned n = some answer) (h : Answered srv s.runtime req now l x) :
    Answered srv s'.runtime req now l x := by
  induction h with
  | begun => exact .begun
  | resumed _ call returned ih => exact .resumed ih call (hr _ _ returned)

theorem Follows.frame (h : Follows srv s i v) (hs : Step 0 srv s s' a)
    (hasks : ∀ l, s.runtime.AsksFor i l → s'.runtime.AsksFor i l) : Follows srv s' i v := by
  obtain ⟨l, hl, ha⟩ := h
  exact ⟨l, answered_step (fun _ _ => hs.returned) hl, hasks _ ha⟩

theorem followed_start (c : Config) : (start c).Followed srv :=
  ⟨by simp [start, Runtime.start, Runtime.asks], by simp [start]⟩

theorem Issued.mem_asks (h : Issued s s' j x) (hn : s'.runtime.asks[n]? = some (i, op)) :
    s.runtime.asks[n]? = some (i, op) ∨ i = j := by
  rw [h.asks] at hn
  cases hx : x.call with
  | none =>
    rw [hx] at hn
    exact .inl (by simpa using hn)
  | some op' =>
    rw [hx] at hn
    exact (List.getElem?_concat_eq_some.mp hn).imp_right fun h => (Prod.mk.inj h.2).1

theorem Followed.step (h : s.Followed srv) (hs : Step 0 srv s s' a) : s'.Followed srv := by
  have hlen : s.runtime.asks.length = s.runtime.calls.length := List.length_map _
  have hframe := fun (i : Nat) (v : Visit) hv => (h.visits i v hv).frame hs
  cases hs with
  | request visits issued =>
    constructor
    · intro n i op hn
      rw [visits, List.length_append]
      obtain hn | rfl := issued.mem_asks hn
      · exact Nat.lt_add_right _ (h.clients n i op hn)
      · exact Nat.lt_succ_self _
    · intro i v hv
      rw [visits] at hv
      obtain hv | ⟨rfl, rfl⟩ := List.getElem?_concat_eq_some.mp hv
      · refine hframe i v hv fun l ha => ha.other issued.asks ?_
        exact Nat.ne_of_lt (List.getElem?_eq_some_iff.mp hv).1
      · have hnone : s.runtime.AsksFor s.visits.length [] := fun n op =>
          ⟨fun hn => absurd (h.clients n _ op hn) (Nat.lt_irrefl _), by simp⟩
        exact ⟨[], .begun, hlen ▸ hnone.self issued.asks⟩
  | @resume j w op answer visit waits returned visits issued =>
    constructor
    · intro n i op hn
      rw [visits, List.length_set]
      obtain hn | rfl := issued.mem_asks hn
      · exact h.clients n i op hn
      · exact (List.getElem?_eq_some_iff.mp visit).1
    · intro i v hv
      rw [visits] at hv
      obtain ⟨rfl, rfl⟩ | ⟨hi, hv⟩ := List.getElem?_set_cases hv
      · obtain ⟨l, hl, ha⟩ := h.visits i w visit
        have hl' := answered_step (fun _ _ => issued.returned) (hl.resumed waits returned)
        rw [waits] at ha
        exact ⟨_, hl', hlen ▸ ha.self issued.asks⟩
      · exact hframe i v hv fun l ha => ha.other issued.asks hi
  | runtime other visits step =>
    have hasks := Runtime.asks_of_step step other
    constructor
    · intro n i op hn
      rw [visits]
      exact h.clients n i op (hasks ▸ hn)
    · intro i v hv
      refine hframe i v (visits ▸ hv) fun l ha => ?_
      rwa [Runtime.AsksFor, hasks]

theorem followed_run {as : List AppAct} (h : (machine srv c).Run as s) : s.Followed srv :=
  h.invariant (followed_start c) fun hi hs => hi.step (step_sound hs)

inductive WorkerOutcome (s : Runtime) (name : String) : List (Nat × Op) → Exchange → Prop
  | creating :
      WorkerOutcome s name [] { serverless := true, call := some (.createWorker name) }
  | notCreated {n : Nat} {answer : Answer} (returned : s.returned n = some answer)
      (none : ∀ ids, answer ≠ .created (some ids)) :
      WorkerOutcome s name [(n, .createWorker name)]
        { serverless := true, body := some (.errored "failed to create worker") }
  | executing {n pod wrk : Nat} (created : s.returned n = some (.created (some (pod, wrk)))) :
      WorkerOutcome s name [(n, .createWorker name)]
        { serverless := true, call := some (.sendHttpToWorker pod wrk) }
  | notExecuted {n m pod wrk : Nat} {answer : Answer}
      (created : s.returned n = some (.created (some (pod, wrk))))
      (returned : s.returned m = some answer) (none : ∀ text, answer ≠ .http text) :
      WorkerOutcome s name [(n, .createWorker name), (m, .sendHttpToWorker pod wrk)]
        { serverless := true, body := some (.errored "failed to execute worker") }
  | executed {n m pod wrk : Nat} {text : String}
      (created : s.returned n = some (.created (some (pod, wrk))))
      (returned : s.returned m = some (.http text)) :
      WorkerOutcome s name [(n, .createWorker name), (m, .sendHttpToWorker pod wrk)]
        { serverless := true, body := some (.text text) }

inductive GuardedOutcome (srv : Server) (s : Runtime) (route : GuardedRoute) (name : String)
    (req : Request) (now : Nat) : List (Nat × Op) → Exchange → Prop
  | stopped :
      GuardedOutcome srv s route name req now [] (srv.stopped route name req now (srv.verdict req now))
  | handled {n : Nat} {payload : ByteArray} {answer : Answer}
      (verdict : srv.verdict req now = .handled payload) (returned : s.returned n = some answer) :
      GuardedOutcome srv s route name req now [(n, route.op name payload)]
        { serverless := true, claims := (srv.bearer req now).toOption, body := some (route.body answer) }

def Outcome (srv : Server) (s : Runtime) (req : Request) (now : Nat) (l : List (Nat × Op))
    (x : Exchange) : Prop :=
  match routeOf req.method req.path with
  | .guarded route name => GuardedOutcome srv s route name req now l x
  | .worker name _ => WorkerOutcome s name l x
  | .wildcard => l = [] ∧ x = { serverless := true, body := some (.text "\x7b\x7d") }

theorem WorkerOutcome.resume {r : Runtime} {name : String} (h : WorkerOutcome r name l x)
    (hop : x.call = some op) (hr : r.returned n = some answer) :
    WorkerOutcome r name (l ++ [(n, op)]) (Handler.resume x op answer) := by
  cases h with
  | creating =>
    cases hop
    by_cases hids : ∃ ids, answer = .created (some ids)
    · obtain ⟨⟨pod, wrk⟩, rfl⟩ := hids
      exact .executing hr
    · have hnone : ∀ ids, answer ≠ .created (some ids) := fun ids he => hids ⟨ids, he⟩
      have hresume : Handler.resume { serverless := true, call := some (.createWorker name) }
          (.createWorker name) answer =
            { serverless := true, body := some (.errored "failed to create worker") } := by
        unfold Handler.resume
        split <;> simp_all
      exact hresume ▸ .notCreated hr hnone
  | @executing k pod wrk created =>
    cases hop
    by_cases htext : ∃ text, answer = .http text
    · obtain ⟨text, rfl⟩ := htext
      exact .executed created hr
    · have hnone : ∀ text, answer ≠ .http text := fun text he => htext ⟨text, he⟩
      have hresume : Handler.resume { serverless := true, call := some (.sendHttpToWorker pod wrk) }
          (.sendHttpToWorker pod wrk) answer =
            { serverless := true, body := some (.errored "failed to execute worker") } := by
        unfold Handler.resume
        split <;> simp_all
      exact hresume ▸ .notExecuted created hr hnone
  | notCreated | notExecuted | executed => cases hop

theorem GuardedOutcome.resume {r : Runtime} {route : GuardedRoute} {name : String}
    (h : GuardedOutcome srv r route name req now l x) (hop : x.call = some op)
    (hr : r.returned n = some answer) :
    GuardedOutcome srv r route name req now (l ++ [(n, op)]) (Handler.resume x op answer) := by
  cases h with
  | stopped =>
    cases hv : srv.verdict req now with
    | handled payload =>
      rw [hv] at hop
      cases hop
      rw [Server.resume_stopped]
      exact .handled hv hr
    | unauthorized | crashed | unreadable | badRequest =>
      rw [hv] at hop
      cases hop
  | handled => cases hop

theorem outcome_of_answered {r : Runtime} (h : Answered srv r req now l x) :
    Outcome srv r req now l x := by
  unfold Outcome
  induction h with
  | begun =>
    rw [Server.service_eq]
    cases routeOf req.method req.path with
    | guarded route name => exact .stopped
    | worker name rest => exact .creating
    | wildcard => exact ⟨rfl, rfl⟩
  | resumed _ hop hr ih =>
    cases hroute : routeOf req.method req.path with
    | guarded route name =>
      rw [hroute] at ih
      exact GuardedOutcome.resume ih hop hr
    | worker name rest =>
      rw [hroute] at ih
      exact WorkerOutcome.resume ih hop hr
    | wildcard =>
      rw [hroute] at ih
      obtain ⟨-, rfl⟩ := ih
      cases hop

/-- In every run each request is where its route and the answers to its own calls put it, and no
other call is made for it. -/
theorem visit_outcome {as : List AppAct} (h : (machine srv c).Run as s)
    (hv : s.visits[i]? = some v) :
    ∃ l, Outcome srv s.runtime v.req v.now l v.exchange ∧
      s.runtime.AsksFor i (l ++ v.exchange.call.toList.map fun op => (v.call, op)) := by
  obtain ⟨l, hl, ha⟩ := (followed_run h).visits i v hv
  exact ⟨l, outcome_of_answered hl, ha⟩

def getWorker : Request where
  method := .get
  path := ["worker", "a"]
  authorization := none
  payload := none

def answeredRun : List AppAct :=
  [.request getWorker 0] ++
    ([.enqueue 0, .recv {}, .send, .pod 0 .recv, .send, .pod 0 .recv, .ret 0] : List RuntimeAct).map .runtime ++
    [.resume 0] ++
    ([.enqueue 1, .recv {}, .send, .pod 0 .recv, .pod 0 .send] ++
      (([.init {}, .recv, .resume, .newPromise, .ret (.promise 0 .ok), .fulfil 0 ⟨"x"⟩, .job] :
        List WorkerAct).map fun a => .pod 0 (.worker 0 a)) ++ [.ret 1] : List RuntimeAct).map .runtime ++
    [.resume 0]

theorem visit_outcome_answeredRun :
    ∃ s v, (machine ⟨"secret", cryptoX⟩ Runtime.oneWorker).Run answeredRun s ∧
      s.visits[0]? = some v ∧ v.exchange.body = some (.text "x") ∧
      ∃ l, Outcome ⟨"secret", cryptoX⟩ s.runtime v.req v.now l v.exchange ∧
        s.runtime.AsksFor 0 (l ++ v.exchange.call.toList.map fun op => (v.call, op)) := by
  obtain ⟨s, v, hs, hv, ht⟩ :
      ∃ s v, (machine ⟨"secret", cryptoX⟩ Runtime.oneWorker).Run answeredRun s ∧
        s.visits[0]? = some v ∧ v.exchange.body = some (.text "x") := ⟨_, _, rfl, rfl, rfl⟩
  exact ⟨s, v, hs, hv, ht, visit_outcome hs hv⟩

end App

end Serverlessd
