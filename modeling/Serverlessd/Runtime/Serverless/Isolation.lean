import Serverlessd.Runtime.Serverless.Visits

namespace Serverlessd

namespace App

variable {srv : Server} {c : Config} {s : App} {as : List AppAct} {i n m r r' pod wrk : Nat} {v : Visit}
  {name : String} {x : Exchange} {l : List (Nat × Op)}

theorem runtime_invariant {P : Runtime → Prop} (init : P (Runtime.start c))
    (step : ∀ {s a s'}, P s → Runtime.Step s a s' → P s') (h : (machine srv c).Run as s) :
    P s.runtime := by
  refine h.invariant (P := fun s => P s.runtime) init fun {s a s'} hi hs => ?_
  obtain hr | ⟨b, hstep, -⟩ := (step_sound hs).runtime_step
  · rwa [hr]
  · exact step hi hstep

structure Kept (c : Config) (s : Runtime) : Prop where
  labelled : s.Labelled
  traced : s.Traced
  placed : s.Placed
  admitted : s.Admitted c.nWorkers
  length : s.pods.length = c.nThreads
  attributed : s.Attributed
  heard : s.Heard

theorem kept_start (c : Config) : Kept c (Runtime.start c) :=
  ⟨Runtime.labelled_start c, Runtime.traced_start c, Runtime.placed_start c,
    Runtime.admitted_start c, List.length_replicate, Runtime.attributed_start c,
    Runtime.heard_start c⟩

theorem Kept.step {s s' : Runtime} {a : RuntimeAct} (h : Kept c s) (hs : Runtime.Step s a s') :
    Kept c s' where
  labelled := h.labelled.step hs
  traced := h.traced.step h.labelled hs
  placed := h.placed.step h.labelled hs
  admitted := h.admitted.step h.labelled h.placed hs
  length := (Runtime.pods_length_of_step hs).trans h.length
  attributed := h.attributed.step h.traced hs
  heard := h.heard.step hs

theorem kept_run (h : (machine srv c).Run as s) : Kept c s.runtime :=
  runtime_invariant (kept_start c) Kept.step h

theorem Kept.created {s : Runtime} (h : Kept c s) {ids : Nat × Nat}
    (hr : s.returned n = some (.created (some ids))) : (n, .created (some ids)) ∈ s.replies :=
  (h.heard.replied n _ (Runtime.mem_history_of_returned hr)).resolve_right (by simp)

theorem Kept.http {s : Runtime} (h : Kept c s) {text : String}
    (hr : s.returned n = some (.http text)) : (n, .http text) ∈ s.replies :=
  (h.heard.replied n _ (Runtime.mem_history_of_returned hr)).resolve_right (by simp)

structure Serves (s : Runtime) (i n m pod wrk : Nat) : Prop where
  created : s.returned n = some (.created (some (pod, wrk)))
  asks : ∃ name, s.AsksFor i [(n, .createWorker name), (m, .sendHttpToWorker pod wrk)]

theorem serves_of_outcome {s : Runtime} (h : WorkerOutcome s name l x)
    (ha : s.AsksFor i (l ++ x.call.toList.map fun op => (m, op)))
    (hr : (r, .sendHttpToWorker pod wrk) ∈ l ++ x.call.toList.map fun op => (m, op)) :
    ∃ n, Serves s i n r pod wrk := by
  cases h with
  | creating => simp at hr
  | notCreated => simp at hr
  | @executing k p w created =>
    obtain ⟨rfl, rfl, rfl⟩ : r = m ∧ pod = p ∧ wrk = w := by simpa using hr
    exact ⟨k, created, name, ha⟩
  | notExecuted created =>
    obtain ⟨rfl, rfl, rfl⟩ : r = _ ∧ pod = _ ∧ wrk = _ := by simpa using hr
    exact ⟨_, created, name, ha⟩
  | executed created =>
    obtain ⟨rfl, rfl, rfl⟩ : r = _ ∧ pod = _ ∧ wrk = _ := by simpa using hr
    exact ⟨_, created, name, ha⟩

theorem op_of_outcome {s : Runtime} {route : GuardedRoute} {req : Request} {now : Nat} {op : Op}
    (h : GuardedOutcome srv s route name req now l x)
    (hop : (n, op) ∈ l ++ x.call.toList.map fun op => (m, op)) :
    ∃ payload, srv.verdict req now = .handled payload ∧ op = route.op name payload := by
  cases h with
  | stopped =>
    cases hv : srv.verdict req now with
    | handled payload =>
      obtain ⟨-, rfl⟩ : n = m ∧ op = route.op name payload := by simpa [hv, Server.stopped] using hop
      exact ⟨payload, rfl, rfl⟩
    | unauthorized | crashed | unreadable | badRequest => simp [hv, Server.stopped] at hop
  | @handled k payload answer verdict =>
    obtain ⟨-, rfl⟩ : n = k ∧ op = route.op name payload := by simpa using hop
    exact ⟨payload, verdict, rfl⟩

theorem outcome_of_asks (h : (machine srv c).Run as s) {op : Op}
    (hr : s.runtime.asks[r]? = some (i, op)) : ∃ v l, s.visits[i]? = some v ∧
      Outcome srv s.runtime v.req v.now l v.exchange ∧
      s.runtime.AsksFor i (l ++ v.exchange.call.toList.map fun op => (v.call, op)) ∧
      (r, op) ∈ l ++ v.exchange.call.toList.map fun op => (v.call, op) := by
  have hv := List.getElem?_eq_getElem ((followed_run h).clients r i _ hr)
  obtain ⟨l, hl, ha⟩ := (followed_run h).visits i _ hv
  exact ⟨_, l, hv, outcome_of_answered hl, ha, (ha r _).mp hr⟩

theorem serves_of_asks (h : (machine srv c).Run as s)
    (hr : s.runtime.asks[r]? = some (i, .sendHttpToWorker pod wrk)) :
    ∃ n, Serves s.runtime i n r pod wrk := by
  obtain ⟨v, l, -, hout, ha, hmem⟩ := outcome_of_asks h hr
  unfold Outcome at hout
  split at hout
  · rename_i route name _
    obtain ⟨payload, -, hop⟩ := op_of_outcome hout hmem
    cases route <;> cases hop
  · exact serves_of_outcome hout ha hmem
  · obtain ⟨rfl, hx⟩ := hout
    simp [hx] at hmem

theorem asked_once (h : (machine srv c).Run as s)
    (hr : s.runtime.opOf r = some (.sendHttpToWorker pod wrk))
    (hr' : s.runtime.opOf r' = some (.sendHttpToWorker pod wrk)) : r = r' := by
  have hkept := kept_run h
  obtain ⟨i, hi⟩ := Runtime.asks_of_opOf hr
  obtain ⟨i', hi'⟩ := Runtime.asks_of_opOf hr'
  obtain ⟨n, hcreated, name, ha⟩ := serves_of_asks h hi
  obtain ⟨n', hcreated', name', ha'⟩ := serves_of_asks h hi'
  obtain ⟨task, htask, rfl⟩ := hkept.placed.created n pod wrk (hkept.created hcreated)
  obtain ⟨task', htask', rfl⟩ := hkept.placed.created n' pod wrk (hkept.created hcreated')
  obtain rfl := Option.some.inj (htask.symm.trans htask')
  have hn := (ha task.call (.createWorker name)).mpr List.mem_cons_self
  have hn' := (ha' task.call (.createWorker name')).mpr List.mem_cons_self
  obtain ⟨rfl, -⟩ := Prod.mk.inj (Option.some.inj (hn.symm.trans hn'))
  have hmem := (ha r' _).mp hi'
  exact .symm (by simpa using hmem)

/-- In every run of the server no worker gets the events of two requests. -/
theorem isolated (h : (machine srv c).Run as s) (hr : (r, pod, wrk) ∈ s.runtime.delivered)
    (hr' : (r', pod, wrk) ∈ s.runtime.delivered) : r = r' := by
  have ht := (kept_run h).traced
  exact asked_once h (ht.delivered _ hr).1 (ht.delivered _ hr').1

/-- The request was given a worker: its event is on its way, or was answered or lost. -/
def Visit.placed (v : Visit) : Bool :=
  match routeOf v.req.method v.req.path, v.exchange.call, v.exchange.body with
  | .worker _ _, some (.sendHttpToWorker _ _), _ => true
  | .worker _ _, none, some (.text _) => true
  | .worker _ _, none, some (.errored err) => err = "failed to execute worker"
  | _, _, _ => false

theorem created_of_placed (h : (machine srv c).Run as s) (hv : s.visits[i]? = some v)
    (hp : Visit.placed v = true) : ∃ ids, ∃ n name, (n, .created (some ids)) ∈ s.runtime.replies ∧
      s.runtime.asks[n]? = some (i, .createWorker name) := by
  have hkept := kept_run h
  obtain ⟨l, hl, ha⟩ := (followed_run h).visits i v hv
  have hout := outcome_of_answered hl
  unfold Visit.placed at hp
  unfold Outcome at hout
  cases hroute : routeOf v.req.method v.req.path with
  | worker name rest =>
    rw [hroute] at hp hout
    generalize v.exchange = x at *
    cases hout with
    | creating | notCreated => simp at hp
    | executing created | notExecuted created | executed created =>
      exact ⟨_, _, name, hkept.created created, (ha _ _).mpr (by simp)⟩
  | guarded | wildcard => simp [hroute] at hp

def slots (c : Config) : Finset (Nat × Nat) := Finset.range c.nThreads ×ˢ Finset.range c.nWorkers

theorem card_slots (c : Config) : (slots c).card = c.nThreads * c.nWorkers := by simp [slots]

theorem slots_of_placed (h : (machine srv c).Run as s) : ∃ f : Nat → Nat × Nat,
    (∀ (i : Nat) (v : Visit), s.visits[i]? = some v → Visit.placed v = true → f i ∈ slots c) ∧
      ∀ (i j : Nat) (v w : Visit), s.visits[i]? = some v → s.visits[j]? = some w → Visit.placed v = true →
        Visit.placed w = true → f i = f j → i = j := by
  have hkept := kept_run h
  choose! f hf using fun (i : Nat) (hi : ∃ v, s.visits[i]? = some v ∧ Visit.placed v = true) =>
    created_of_placed h hi.choose_spec.1 hi.choose_spec.2
  refine ⟨f, fun i v hv hp => ?_, fun i j v w hv hw hp hq he => ?_⟩
  · obtain ⟨n, name, hm, -⟩ := hf i ⟨v, hv, hp⟩
    obtain ⟨task, htask, -⟩ := hkept.placed.created n (f i).1 (f i).2 hm
    obtain ⟨p, worker, get, hworker, -⟩ := Runtime.taskOf_eq_some.mp htask
    have hpod := (List.getElem?_eq_some_iff.mp get).1
    have hlt := (List.getElem?_eq_some_iff.mp hworker).1
    have hle := (hkept.admitted.pods p (List.mem_of_getElem? get)).started
    rw [hkept.length] at hpod
    exact Finset.mem_product.mpr ⟨Finset.mem_range.mpr hpod, Finset.mem_range.mpr (by omega)⟩
  · -- the same ids were given to the same call
    obtain ⟨n, name, hm, hn⟩ := hf i ⟨v, hv, hp⟩
    obtain ⟨m, name', hm', hn'⟩ := hf j ⟨w, hw, hq⟩
    rw [← he] at hm'
    obtain ⟨task, htask, rfl⟩ := hkept.placed.created n (f i).1 (f i).2 hm
    obtain ⟨task', htask', rfl⟩ := hkept.placed.created m (f i).1 (f i).2 hm'
    obtain rfl := Option.some.inj (htask.symm.trans htask')
    exact (Prod.mk.inj (Option.some.inj (hn.symm.trans hn'))).1

theorem placed_step {t : App} {a : AppAct} (hs : Step 0 srv s t a) (hv : s.visits[i]? = some v)
    (hp : Visit.placed v = true) : ∃ w, t.visits[i]? = some w ∧ Visit.placed w = true := by
  have hlt := (List.getElem?_eq_some_iff.mp hv).1
  cases hs with
  | request visits => exact ⟨v, by rw [visits, List.getElem?_append_left hlt, hv], hp⟩
  | @resume j u op answer visit waits returned visits =>
    by_cases hj : j = i
    · subst hj
      obtain rfl := Option.some.inj (hv.symm.trans visit)
      refine ⟨_, by rw [visits, List.getElem?_set_self hlt], ?_⟩
      unfold Visit.placed at hp ⊢
      rw [waits] at hp
      cases op with
      | sendHttpToWorker =>
        unfold Handler.resume
        cases hroute : routeOf v.req.method v.req.path with
        | worker name rest => cases answer <;> rfl
        | guarded | wildcard => simp [hroute] at hp
      | createWorker | uploadWorker | removeWorker => simp at hp
    · exact ⟨v, by rw [visits, List.getElem?_set_ne hj, hv], hp⟩
  | runtime _ visits => exact ⟨v, visits ▸ hv, hp⟩

theorem placed_run {bs : List AppAct} {t : App} (h : (machine srv c).Run as s)
    (ht : (machine srv c).Run (as ++ bs) t) (hv : s.visits[i]? = some v)
    (hp : Visit.placed v = true) : ∃ w, t.visits[i]? = some w ∧ Visit.placed w = true := by
  induction bs using List.reverseRecOn generalizing t with
  | nil =>
    rw [List.append_nil] at ht
    obtain rfl := h.unique ht
    exact ⟨v, hv, hp⟩
  | append_singleton bs b ih =>
    rw [← List.append_assoc] at ht
    obtain ⟨u, hu, hs⟩ := Machine.run_concat_iff.mp ht
    obtain ⟨w, hw, hq⟩ := ih hu
    exact placed_step (step_sound hs) hw hq

/-- In every run of the server, however long, no more requests are given a worker than there are
slots in all pods together; and from then on no other request is given one. -/
theorem placed_le (h : (machine srv c).Run as s) :
    s.visits.countP Visit.placed ≤ c.nThreads * c.nWorkers ∧
      (s.visits.countP Visit.placed = c.nThreads * c.nWorkers → ∀ bs t,
        (machine srv c).Run (as ++ bs) t → ∀ (i : Nat) (v : Visit), t.visits[i]? = some v → Visit.placed v = true →
          ∃ w, s.visits[i]? = some w ∧ Visit.placed w = true) := by
  constructor
  · obtain ⟨f, hf, hinj⟩ := slots_of_placed h
    rw [← card_slots]
    exact List.countP_le_card hf hinj
  · intro hfull bs t ht i v hv hp
    obtain ⟨f, hf, hinj⟩ := slots_of_placed ht
    by_contra hnew
    have hle : s.visits.countP Visit.placed ≤ ((slots c).erase (f i)).card := by
      refine List.countP_le_card (f := f) (fun j w hw hq => ?_) fun j k w u hw hu hq hr he => ?_
      · obtain ⟨w', hw', hq'⟩ := placed_run h ht hw hq
        refine Finset.mem_erase.mpr ⟨fun he => hnew ?_, hf j w' hw' hq'⟩
        obtain rfl := hinj j i w' v hw' hv hq' hp he
        exact ⟨w, hw, hq⟩
      · obtain ⟨w', hw', hq'⟩ := placed_run h ht hw hq
        obtain ⟨u', hu', hr'⟩ := placed_run h ht hu hr
        exact hinj j k w' u' hw' hu' hq' hr' he
    have hmem := hf i v hv hp
    rw [Finset.card_erase_of_mem hmem, card_slots, hfull] at hle
    have hpos := Finset.card_pos.mpr ⟨_, hmem⟩
    rw [card_slots] at hpos
    omega

theorem placed_le_answeredRun :
    ∃ s, (machine ⟨"secret", cryptoX⟩ Runtime.oneWorker).Run answeredRun s ∧
      s.visits.countP Visit.placed ≤ 1 ∧
      ∀ bs t, (machine ⟨"secret", cryptoX⟩ Runtime.oneWorker).Run (answeredRun ++ bs) t →
        ∀ (i : Nat) (v : Visit), t.visits[i]? = some v → Visit.placed v = true →
          ∃ w, s.visits[i]? = some w ∧ Visit.placed w = true := by
  obtain ⟨s, hs, hfull⟩ : ∃ s, (machine ⟨"secret", cryptoX⟩ Runtime.oneWorker).Run answeredRun s ∧
      s.visits.countP Visit.placed = 1 := ⟨_, rfl, rfl⟩
  obtain ⟨hle, hused⟩ := placed_le hs
  exact ⟨s, hs, hle, hused hfull⟩

/-- In every run of the server the text that answers a request for a worker, unless it is empty, is
the value of the handler's promise for the event of this very request, in the worker that was
started for it with the source that the code store held for its name, and which got no other
event. -/
theorem text_attributed (h : (machine srv c).Run as s) (hv : s.visits[i]? = some v)
    {rest : List String} (hroute : routeOf v.req.method v.req.path = .worker name rest)
    {text : String} (ht : v.exchange.body = some (.text text)) :
    text = "" ∨ ∃ n m pod wrk source,
      s.runtime.AsksFor i [(n, .createWorker name), (m, .sendHttpToWorker pod wrk)] ∧
      s.runtime.taskOf pod wrk = some ⟨source, n⟩ ∧
      (∃ e ∈ s.runtime.log, e.call = n ∧ Runtime.Reads e.fs name source) ∧
      s.runtime.Fulfils m pod wrk text ∧
      ∀ r, (r, pod, wrk) ∈ s.runtime.delivered → r = m := by
  have hkept := kept_run h
  obtain ⟨l, hl, ha⟩ := (followed_run h).visits i v hv
  have hout := outcome_of_answered hl
  rw [Outcome, hroute] at hout
  obtain ⟨n, m, pod, wrk, hl, hnone, hcreated, hreturned⟩ : ∃ n m pod wrk,
      l = [(n, .createWorker name), (m, .sendHttpToWorker pod wrk)] ∧ v.exchange.call = none ∧
        s.runtime.returned n = some (.created (some (pod, wrk))) ∧
        s.runtime.returned m = some (.http text) := by
    generalize v.exchange = x at hout ht
    cases hout with
    | @executed n m pod wrk text' created returned =>
      obtain rfl : text' = text := by simpa using ht
      exact ⟨n, m, pod, wrk, rfl, rfl, created, returned⟩
    | creating | notCreated | executing | notExecuted => simp at ht
  rw [hl, hnone, Option.toList_none, List.map_nil, List.append_nil] at ha
  refine (hkept.attributed.http m text (hkept.http hreturned)).imp_right ?_
  rintro ⟨idx, worker, hf⟩
  have hd := hkept.attributed.delivered hf
  have hop := Runtime.opOf_of_asks ((ha m (.sendHttpToWorker pod wrk)).mpr (by simp))
  have hop' := (hkept.traced.delivered _ hd).1
  obtain ⟨rfl, rfl⟩ : pod = idx ∧ wrk = worker := by simpa using hop.symm.trans hop'
  obtain ⟨task, htask, rfl⟩ := hkept.placed.created n pod wrk (hkept.created hcreated)
  obtain ⟨e, he, hcall, hsource⟩ := hkept.labelled.taskStarted htask
  obtain ⟨name', hname, hreads⟩ := hkept.labelled.log e he _ hsource
  have hcreate := Runtime.opOf_of_asks ((ha _ _).mpr List.mem_cons_self)
  rw [hcall, hcreate] at hname
  cases hname
  exact ⟨task.call, m, pod, wrk, task.source, ha, htask, ⟨e, he, hcall, hreads⟩, hf,
    fun r hr => asked_once h (hkept.traced.delivered _ hr).1 hop'⟩

theorem isolated_answeredRun :
    ∃ s, (machine ⟨"secret", cryptoX⟩ Runtime.oneWorker).Run answeredRun s ∧
      (1, 0, 0) ∈ s.runtime.delivered ∧ ∀ r, (r, 0, 0) ∈ s.runtime.delivered → r = 1 := by
  obtain ⟨s, hs, hd⟩ : ∃ s, (machine ⟨"secret", cryptoX⟩ Runtime.oneWorker).Run answeredRun s ∧
      (1, 0, 0) ∈ s.runtime.delivered := ⟨_, rfl, by decide⟩
  exact ⟨s, hs, hd, fun r hr => isolated hs hr hd⟩

theorem text_attributed_answeredRun :
    ∃ s, (machine ⟨"secret", cryptoX⟩ Runtime.oneWorker).Run answeredRun s ∧
      ∃ n m pod wrk source,
        s.runtime.AsksFor 0 [(n, .createWorker "a"), (m, .sendHttpToWorker pod wrk)] ∧
        s.runtime.taskOf pod wrk = some ⟨source, n⟩ ∧
        (∃ e ∈ s.runtime.log, e.call = n ∧ Runtime.Reads e.fs "a" source) ∧
        s.runtime.Fulfils m pod wrk "x" ∧
        ∀ r, (r, pod, wrk) ∈ s.runtime.delivered → r = m := by
  obtain ⟨s, hs, v, hv, hroute, ht⟩ :
      ∃ s, (machine ⟨"secret", cryptoX⟩ Runtime.oneWorker).Run answeredRun s ∧
        ∃ v, s.visits[0]? = some v ∧ routeOf v.req.method v.req.path = .worker "a" [] ∧
          v.exchange.body = some (.text "x") := ⟨_, rfl, _, rfl, rfl, rfl⟩
  exact ⟨s, hs, (text_attributed hs hv hroute ht).resolve_left (by decide)⟩

end App

end Serverlessd
