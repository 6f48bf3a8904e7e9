import Serverlessd.Runtime.Serverless.Freshness

/-! The server as its clients see it: a service that handles the requests one after the other. -/

namespace Serverlessd

def Op.onStore : Op → Bool
  | .createWorker _ | .uploadWorker _ _ | .removeWorker _ => true
  | .sendHttpToWorker _ _ => false

def Server.serviceOp (srv : Server) (req : Request) (now : Nat) : Option Op :=
  match routeOf req.method req.path with
  | .guarded route name =>
    match srv.verdict req now with
    | .handled payload => some (route.op name payload)
    | .unauthorized | .crashed | .unreadable | .badRequest => none
  | .worker name _ => some (.createWorker name)
  | .wildcard => none

namespace CodeMap

variable {m : CodeMap} {calls : List Nat} {f g : Nat → Option Op}

/-- What the service may say.  A worker can be refused for want of a slot, and its event can be
lost. -/
inductive Responds (m : CodeMap) : Op → Body → Prop
  | uploaded {name : String} {code : ByteArray} (valid : validName name = true) :
      Responds m (.uploadWorker name code) .ok
  | invalid {name : String} {code : ByteArray} (invalid : validName name = false) :
      Responds m (.uploadWorker name code) (.failed (.invalidName name))
  | removed {name : String} : Responds m (.removeWorker name) .ok
  | refused {name : String} : Responds m (.createWorker name) (.errored "failed to create worker")
  | lost {name : String} (stored : (m.source (.createWorker name)).isSome) :
      Responds m (.createWorker name) (.errored "failed to execute worker")
  | executed {name text : String} (stored : (m.source (.createWorker name)).isSome) :
      Responds m (.createWorker name) (.text text)

theorem after_filterMap (h : ∀ n, f n = g n ∨ g n = none ∧ ∃ op, f n = some op ∧ op.onStore = false) :
    m.after (calls.filterMap f) = m.after (calls.filterMap g) := by
  induction calls using List.reverseRecOn with
  | nil => rfl
  | append_singleton calls n ih =>
    rw [List.filterMap_append, List.filterMap_append]
    obtain heq | ⟨hnone, op, hop, hstore⟩ := h n
    · cases hg : g n with
      | none => simp [heq, hg, ih]
      | some op => simp [heq, hg, after_concat, ih]
    · have hkeep : (m.after (calls.filterMap g)).apply op = m.after (calls.filterMap g) := by
        cases op with
        | sendHttpToWorker => rfl
        | createWorker | uploadWorker | removeWorker => cases hstore
      simp [hnone, hop, after_concat, hkeep, ih]

end CodeMap

def Runtime.requestOf (s : Runtime) (n : Nat) : Option Nat :=
  (s.asks[n]?).bind fun ask => if ask.2.onStore then some ask.1 else none

theorem Runtime.requestOf_eq_some {s : Runtime} {n i : Nat} :
    s.requestOf n = some i ↔ ∃ op, s.asks[n]? = some (i, op) ∧ op.onStore = true := by
  unfold requestOf
  cases s.asks[n]? with
  | none => simp
  | some ask =>
    obtain ⟨j, op⟩ := ask
    cases hs : op.onStore <;> simp [hs]

namespace App

variable {srv : Server} {c : Config} {s t : App} {as bs : List AppAct} {i j k n : Nat} {v : Visit}
  {op op' : Op} {m : CodeMap} {l : List (Nat × Op)} {x : Exchange} {req : Request} {now : Nat}

def requestOp (srv : Server) (s : App) (i : Nat) : Option Op :=
  (s.visits[i]?).bind fun v => srv.serviceOp v.req v.now

def order (s : App) : List Nat := s.runtime.order.filterMap s.runtime.requestOf

theorem calls_of_outcome {r : Runtime} (h : Outcome srv r req now l x) :
    (l ++ x.call.toList.map fun op => (k, op)) = [] ∨
      ∃ n op rest, (l ++ x.call.toList.map fun op => (k, op)) = (n, op) :: rest ∧
        srv.serviceOp req now = some op ∧ ∀ call ∈ rest, call.2.onStore = false := by
  unfold Outcome at h
  unfold Server.serviceOp
  cases hroute : routeOf req.method req.path with
  | guarded route name =>
    rw [hroute] at h
    cases h with
    | stopped =>
      cases hv : srv.verdict req now with
      | handled payload => exact .inr ⟨k, _, [], rfl, rfl, by simp⟩
      | unauthorized | crashed | unreadable | badRequest => exact .inl rfl
    | @handled n payload answer verdict => exact .inr ⟨n, _, [], rfl, by rw [verdict], by simp⟩
  | worker name rest =>
    rw [hroute] at h
    cases h with
    | creating | notCreated => exact .inr ⟨_, _, [], rfl, rfl, by simp⟩
    | executing | notExecuted | executed =>
      exact .inr ⟨_, _, [_], rfl, rfl, fun call hc => List.mem_singleton.mp hc ▸ rfl⟩
  | wildcard =>
    rw [hroute] at h
    obtain ⟨rfl, rfl⟩ := h
    exact .inl rfl

theorem requestOp_of_asks (h : (machine srv c).Run as s) (hn : s.runtime.asks[n]? = some (i, op))
    (hs : op.onStore = true) : s.requestOp srv i = some op ∧
      ∀ k op', s.runtime.asks[k]? = some (i, op') → op'.onStore = true → k = n := by
  obtain ⟨v, l, hv, hout, ha, hmem⟩ := outcome_of_asks h hn
  obtain hnil | ⟨k, first, rest, hcalls, hop, hrest⟩ := @calls_of_outcome srv v.call l _ _ _ _ hout
  · rw [hnil] at hmem
    cases hmem
  rw [hcalls] at ha hmem
  have hfirst : ∀ {call : Nat × Op}, call ∈ (k, first) :: rest → call.2.onStore = true →
      call = (k, first) := by
    intro call hc hs
    refine (List.mem_cons.mp hc).resolve_right fun hr => ?_
    rw [hrest call hr] at hs
    cases hs
  obtain ⟨rfl, rfl⟩ := Prod.mk.inj (hfirst hmem hs)
  refine ⟨by simp [requestOp, hv, hop], fun k' op' hk hs' => ?_⟩
  exact (Prod.mk.inj (hfirst ((ha k' op').mp hk) hs')).1

theorem after_requests (h : (machine srv c).Run as s) (calls : List Nat) :
    m.after (s.runtime.opsOf calls) =
      m.after ((calls.filterMap s.runtime.requestOf).filterMap (s.requestOp srv)) := by
  rw [List.filterMap_filterMap]
  refine CodeMap.after_filterMap fun n => ?_
  cases hn : s.runtime.asks[n]? with
  | none =>
    refine .inl ?_
    have hop : s.runtime.opOf n = none := by
      rw [← Option.not_isSome_iff_eq_none]
      intro hsome
      obtain ⟨op, hop⟩ := Option.isSome_iff_exists.mp hsome
      obtain ⟨i, hi⟩ := Runtime.asks_of_opOf hop
      rw [hn] at hi
      cases hi
    simp [hop, Runtime.requestOf, hn]
  | some ask =>
    obtain ⟨i, op⟩ := ask
    have hop := Runtime.opOf_of_asks hn
    cases hs : op.onStore with
    | true =>
      have hreq := Runtime.requestOf_eq_some.mpr ⟨op, hn, hs⟩
      exact .inl (by rw [hop, hreq, Option.bind_some, (requestOp_of_asks h hn hs).1])
    | false => exact .inr ⟨by simp [Runtime.requestOf, hn, hs], op, hop, hs⟩

theorem responds_of_outcome {r : Runtime} (h : Outcome srv r req now l x)
    (hop : srv.serviceOp req now = some op) (hx : x.call = none) : ∃ n answer body, (n, op) ∈ l ∧
      op.onStore = true ∧ r.returned n = some answer ∧ x.body = some body ∧
      ∀ m : CodeMap, m.Allows op answer → m.Responds op body := by
  unfold Outcome at h
  unfold Server.serviceOp at hop
  cases hroute : routeOf req.method req.path with
  | guarded route name =>
    rw [hroute] at h hop
    cases h with
    | stopped => cases hv : srv.verdict req now <;> simp [hv, Server.stopped] at hop hx
    | @handled n payload answer verdict returned =>
      obtain rfl : route.op name payload = op := by simpa [verdict] using hop
      refine ⟨n, answer, _, List.mem_cons_self, by cases route <;> rfl, returned, rfl, fun m hm => ?_⟩
      cases route with
      | upload =>
        obtain rfl : answer = .uploaded (if validName name then none else some (.invalidName name)) := hm
        cases hv : validName name with
        | true => exact .uploaded hv
        | false => exact .invalid hv
      | remove => exact .removed
  | worker name rest =>
    rw [hroute] at h hop
    obtain rfl : .createWorker name = op := Option.some.inj hop
    have hstored : ∀ {m : CodeMap} {ids : Nat × Nat},
        m.Allows (.createWorker name) (.created (some ids)) → (m.source (.createWorker name)).isSome := by
      rintro m ids (hm | ⟨ids', -, hm⟩)
      · cases hm
      · exact hm
    cases h with
    | creating | executing => cases hx
    | notCreated returned =>
      exact ⟨_, _, _, List.mem_cons_self, rfl, returned, rfl, fun m _ => .refused⟩
    | notExecuted created =>
      exact ⟨_, _, _, List.mem_cons_self, rfl, created, rfl, fun m hm => .lost (hstored hm)⟩
    | executed created =>
      exact ⟨_, _, _, List.mem_cons_self, rfl, created, rfl, fun m hm => .executed (hstored hm)⟩
  | wildcard =>
    rw [hroute] at hop
    cases hop

theorem ended_visit (h : (machine srv c).Run as s) (hv : s.visits[i]? = some v)
    (hop : srv.serviceOp v.req v.now = some op) (hx : v.exchange.call = none) :
    ∃ n answer body, s.runtime.asks[n]? = some (i, op) ∧ op.onStore = true ∧
      .returned n answer ∈ s.runtime.history ∧ v.exchange.body = some body ∧
      ∀ m : CodeMap, m.Allows op answer → m.Responds op body := by
  obtain ⟨l, hl, ha⟩ := (followed_run h).visits i v hv
  obtain ⟨n, answer, body, hn, hs, hreturned, hbody, hsays⟩ :=
    responds_of_outcome (outcome_of_answered hl) hop hx
  exact ⟨n, answer, body, (ha n op).mpr (List.mem_append_left _ hn), hs,
    Runtime.mem_history_of_returned hreturned, hbody, hsays⟩

section Order

variable {pre post : List Nat}

theorem order_split (hn : s.runtime.asks[n]? = some (i, op)) (hs : op.onStore = true)
    (horder : s.runtime.order = pre ++ n :: post) :
    s.order = pre.filterMap s.runtime.requestOf ++ i :: post.filterMap s.runtime.requestOf := by
  have hreq := Runtime.requestOf_eq_some.mpr ⟨op, hn, hs⟩
  rw [order, horder, List.filterMap_append, List.filterMap_cons_some hreq]

theorem nodup_order (h : (machine srv c).Run as s) : s.order.Nodup := by
  refine List.Nodup.filterMap (fun n k i hn hk => ?_) (causal_run h).1.ordered.nodup
  obtain ⟨op, hn, hs⟩ := Runtime.requestOf_eq_some.mp hn
  obtain ⟨op', hk, hs'⟩ := Runtime.requestOf_eq_some.mp hk
  exact (requestOp_of_asks h hk hs').2 n op hn hs

end Order

/-- The requests are handled one after the other, each at one point between its arrival and its
response. -/
structure Serial (srv : Server) (c : Config) (as : List AppAct) (s : App) (order : List Nat) : Prop where
  nodup : order.Nodup
  requests : ∀ i ∈ order, ∃ op, s.requestOp srv i = some op
  realTime : ∀ (pre post : List AppAct) (t : App) (i j : Nat) (v : Visit), as = pre ++ post →
    (machine srv c).Run pre t → t.visits[i]? = some v → v.exchange.call = none →
    t.visits.length ≤ j → i ∈ order → j ∈ order → [i, j].Sublist order
  responses : ∀ (i : Nat) (v : Visit) (op : Op), s.visits[i]? = some v →
    srv.serviceOp v.req v.now = some op → v.exchange.call = none → ∃ pre post body,
      order = pre ++ i :: post ∧ v.exchange.body = some body ∧
        ((CodeMap.ofFiles c.fs).after (pre.filterMap (s.requestOp srv))).Responds op body
  sources : ∀ (pod wrk : Nat) (task : WorkerTask), s.runtime.taskOf pod wrk = some task →
    ∃ i pre post name, order = pre ++ i :: post ∧
      s.runtime.asks[task.call]? = some (i, .createWorker name) ∧
      ((CodeMap.ofFiles c.fs).after (pre.filterMap (s.requestOp srv))).source (.createWorker name) =
        some task.source

theorem mem_order_iff : i ∈ s.order ↔ ∃ n op, n ∈ s.runtime.order ∧ s.runtime.asks[n]? = some (i, op) ∧
    op.onStore = true := by
  simp only [order, List.mem_filterMap, Runtime.requestOf_eq_some]
  exact exists_congr fun n => ⟨fun ⟨hn, op, h⟩ => ⟨op, hn, h⟩, fun ⟨op, hn, h⟩ => ⟨hn, op, h⟩⟩

theorem realTime_order (h : (machine srv c).Run as s) (ht : (machine srv c).Run (as ++ bs) t)
    (hv : s.visits[i]? = some v) (hx : v.exchange.call = none) (hj : s.visits.length ≤ j)
    (hi : i ∈ t.order) (hjo : j ∈ t.order) : [i, j].Sublist t.order := by
  obtain ⟨n, op, hn, hask, hs⟩ := mem_order_iff.mp hi
  obtain ⟨k, op', hk, hask', hs'⟩ := mem_order_iff.mp hjo
  obtain ⟨hreq, honce⟩ := requestOp_of_asks ht hask hs
  have hext := extends_of_run h ht
  obtain ⟨w, hw, hreq', hnow⟩ := hext.visits i v hv
  have hop : srv.serviceOp v.req v.now = some op := by
    rw [← hreq', ← hnow]
    simpa [requestOp, hw] using hreq
  obtain ⟨n', answer, -, hask'', hs'', hret, -⟩ := ended_visit h hv hop hx
  obtain rfl := honce n' op (hext.asks n' _ hask'') hs''
  have hpair := (causal_run ht).1.ordered.realTime n' k answer
    (issued_later h ht hret hask' hj) hn hk
  have hpair : [n', k].Sublist t.runtime.order := hpair
  have hmap := hpair.filterMap t.runtime.requestOf
  rwa [List.filterMap_cons_some (Runtime.requestOf_eq_some.mpr ⟨op, hask, hs⟩),
    List.filterMap_cons_some (Runtime.requestOf_eq_some.mpr ⟨op', hask', hs'⟩)] at hmap

theorem ofFiles_start : CodeMap.ofFiles (Runtime.start c).fs = CodeMap.ofFiles c.fs := by
  funext name
  have hcwd : (Runtime.start c).fs.cwd = c.fs.cwd := CodeStore.checkFs_cwd
  rw [CodeMap.ofFiles, CodeMap.ofFiles, hcwd]
  exact CodeStore.checkFs_files CodeStore.codeFile_ne_gitignore

/-- In every run of the server that is not stopped, with valid names and a file system that does
not fail, what the clients are told is what one service tells them that handles the requests one
after the other, in an order that no client can tell from that in which they were sent; and every
worker runs what this service has stored when it handles its request. -/
theorem serial (h : (machine srv c).Run as s) (hp : s.runtime.Proper) : Serial srv c as s s.order := by
  obtain ⟨hq, -, -⟩ := causal_run h
  refine ⟨nodup_order h, fun i hi => ?_, ?_, ?_, ?_⟩
  · obtain ⟨n, op, -, hask, hs⟩ := mem_order_iff.mp hi
    exact ⟨op, (requestOp_of_asks h hask hs).1⟩
  · rintro pre post t i j v rfl ht hv hx hj hi hjo
    exact realTime_order ht h hv hx hj hi hjo
  · intro i v op hv hop hx
    obtain ⟨n, answer, body, hask, hs, hret, hbody, hsays⟩ := ended_visit h hv hop hx
    obtain ⟨pre, post, op', horder, hop', hallows⟩ := hq.returned hp hret
    obtain rfl := Option.some.inj ((Runtime.opOf_of_asks hask).symm.trans hop')
    refine ⟨_, _, body, order_split hask hs horder, hbody, ?_⟩
    rw [← after_requests h, ← ofFiles_start]
    exact hsays _ hallows
  · intro pod wrk task htask
    obtain ⟨e, he, hcall, hsource⟩ := hq.labelled.taskStarted htask
    obtain ⟨pre, post, op, horder, hop, hread⟩ := hq.source hp he
    rw [hcall] at horder hop
    rw [hsource] at hread
    obtain ⟨i, hask⟩ := Runtime.asks_of_opOf hop
    cases op with
    | createWorker name =>
      refine ⟨i, _, _, name, order_split hask rfl horder, hask, ?_⟩
      rw [← after_requests h, ← ofFiles_start]
      exact hread
    | uploadWorker | removeWorker | sendHttpToWorker => cases hread

def overtakenRun : List AppAct :=
  [.request getWorker 0, .request getWorker 0] ++
    ([.enqueue 1, .enqueue 0, .recv {}, .send, .pod 0 .recv, .send, .pod 0 .recv, .recv {}, .send,
      .pod 0 .recv, .send, .ret 0] : List RuntimeAct).map .runtime ++ [.resume 0]

theorem serial_overtakenRun :
    ∃ s, (machine ⟨"secret", cryptoX⟩ Runtime.oneWorker).Run overtakenRun s ∧ s.order = [1, 0] ∧
      (∃ v, s.visits[0]? = some v ∧ v.exchange.body = some (.errored "failed to create worker")) ∧
      Serial ⟨"secret", cryptoX⟩ Runtime.oneWorker overtakenRun s [1, 0] := by
  obtain ⟨s, v, hs, horder, hv, hbody, hcalls, hlog, hserving⟩ :
      ∃ s v, (machine ⟨"secret", cryptoX⟩ Runtime.oneWorker).Run overtakenRun s ∧ s.order = [1, 0] ∧
        s.visits[0]? = some v ∧ v.exchange.body = some (.errored "failed to create worker") ∧
        (∀ c ∈ s.runtime.calls, c.op.Valid) ∧ (∀ e ∈ s.runtime.log, e.io.Succeeds) ∧
        s.runtime.phase.serving = true := ⟨_, _, rfl, rfl, rfl, rfl, by decide, by decide, rfl⟩
  have hp : s.runtime.Proper := ⟨fun _ _ => Runtime.Faultless.op ⟨hcalls, hlog⟩, hlog, hserving⟩
  exact ⟨s, hs, horder, ⟨v, hv, hbody⟩, horder ▸ serial hs hp⟩

end App

end Serverlessd
