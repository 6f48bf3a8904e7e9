import Serverlessd.Runtime.Serverless.Order

namespace Serverlessd

namespace Runtime

variable {s s' : Runtime} {a : RuntimeAct} {c : Config} {as : List RuntimeAct} {fs : FileSystem}
variable {m : CodeMap}

/-- Names to create and to remove are valid, the calls to the file system succeed, and
`serverless_task` is not stopped. -/
def Regular : RuntimeAct → Prop
  | .issue _ op => op.Valid
  | .recv io => io.Succeeds
  | .shutdown | .serverExit => False
  | _ => True

structure Faultless (s : Runtime) : Prop where
  names : ∀ c ∈ s.calls, c.op.Valid
  io : ∀ e ∈ s.log, e.io.Succeeds

structure Proper (s : Runtime) : Prop where
  names : ∀ call op, s.opOf call = some op → op.Valid
  io : ∀ e ∈ s.log, e.io.Succeeds
  serving : s.phase.serving = true

theorem Faultless.op (h : s.Faultless) {call : Nat} {op : Op} (hop : s.opOf call = some op) :
    op.Valid := by
  obtain ⟨c, hc, rfl⟩ := Option.map_eq_some_iff.mp hop
  exact h.names c (List.mem_of_getElem? hc)

theorem Proper.faultless (h : s.Proper) : s.Faultless := by
  refine ⟨fun c hc => ?_, h.io⟩
  obtain ⟨call, hget⟩ := List.mem_iff_getElem?.mp hc
  exact h.names call c.op (by simp [opOf, hget])

theorem proper_start (c : Config) : (start c).Proper :=
  ⟨by simp [opOf, start], by simp [start], rfl⟩

theorem log_io_of_step (hl : s.Labelled) (hs : Step s a s') {e : Processed} (he : e ∈ s'.log) :
    e ∈ s.log ∨ ∃ io, a = .recv io ∧ e.io = io := by
  by_cases ha : ∃ io, a = .recv io
  · obtain ⟨io, rfl⟩ := ha
    cases hs with
    | @recv _ _ call trigger queue phase head hh =>
      obtain ⟨op, -, ht⟩ := hl.queue _ (head ▸ List.mem_cons_self)
      rw [(log_of_handled ht hh).1] at he
      obtain he | rfl := List.mem_append.mp he |>.imp_right List.mem_singleton.mp
      · exact .inl he
      · exact .inr ⟨io, rfl, rfl⟩
  · exact .inl ((log_of_step hs fun io hio => ha ⟨io, hio⟩).1 ▸ he)

theorem Proper.step (h : s.Proper) (hl : s.Labelled) (ha : Regular a) (hs : Step s a s') :
    s'.Proper := by
  refine ⟨fun call op hop => ?_, fun e he => ?_, ?_⟩
  · obtain hop | ⟨-, client, rfl⟩ := opOf_of_step hs hop
    · exact h.names call op hop
    · exact ha
  · obtain he | hio := log_io_of_step hl hs he
    · exact h.io e he
    · obtain ⟨io, rfl, hio⟩ := hio
      exact hio ▸ ha
  · exact serving_of_step hs h.serving ⟨by rintro rfl; exact ha, by rintro rfl; exact ha⟩

def opsOf (s : Runtime) (calls : List Nat) : List Op := calls.filterMap s.opOf

/-- The results of the calls are those of one execution of the map, in the order of the
queue; the order is that of each client's program and that of real time. -/
structure Linearizes (s : Runtime) (m : CodeMap) : Prop where
  nodup : s.order.Nodup
  program : ∀ (i j : Nat) (c d : Call), i < j → s.calls[i]? = some c → s.calls[j]? = some d →
    c.client = d.client → i ∈ s.order → j ∈ s.order → [i, j].Sublist s.order
  realTime : ∀ i j answer, [.returned i answer, .issued j].Sublist s.history →
    i ∈ s.order → j ∈ s.order → [i, j].Sublist s.order
  returned : ∀ call answer, .returned call answer ∈ s.history → ∃ pre post op,
    s.order = pre ++ call :: post ∧ s.opOf call = some op ∧
      (m.after (s.opsOf pre)).Allows op answer
  sources : ∀ idx worker task, s.taskOf idx worker = some task → ∃ pre post op,
    s.order = pre ++ task.call :: post ∧ s.opOf task.call = some op ∧
      (m.after (s.opsOf pre)).source op = some task.source

section Positions

variable {pre post : List Processed} {e : Processed} {call : Nat} {answer : Answer}

theorem order_split (h : s.log = pre ++ e :: post) :
    s.order = pre.map Processed.call ++ e.call :: (post.map Processed.call ++ s.queue.map Prod.fst) := by
  simp [order, h]

theorem Sequenced.stores (h : s.Sequenced fs) (hf : s.Faultless) {dir : FileSystem.File}
    (hm : CodeMap.Stores dir fs m) (hlog : s.log = pre ++ post) :
    CodeMap.Stores dir (stored fs pre) (m.after (s.opsOf (pre.map Processed.call))) := by
  induction pre using List.reverseRecOn generalizing post with
  | nil => exact hm
  | append_singleton pre e ih =>
    have hlog : s.log = pre ++ e :: post := by simpa using hlog
    obtain ⟨op, hop, hfs, -⟩ := h.replayed.log pre e post hlog
    have hops : s.opsOf ((pre ++ [e]).map Processed.call) =
        s.opsOf (pre.map Processed.call) ++ [op] := by
      simp [opsOf, hop]
    rw [stored_concat, hops, CodeMap.after_concat, hfs]
    exact ((ih hlog).run (hf.op hop) (hf.io e (by simp [hlog]))).1

theorem Sequenced.reads (h : s.Sequenced fs) (hf : s.Faultless) {dir : FileSystem.File}
    (hm : CodeMap.Stores dir fs m) (he : e ∈ s.log) : ∃ pre post op,
      s.order = pre ++ e.call :: post ∧ s.opOf e.call = some op ∧
        (m.after (s.opsOf pre)).source op = e.source := by
  obtain ⟨pre, post, hlog⟩ := List.append_of_mem he
  obtain ⟨op, hop, -, hsource⟩ := h.replayed.log pre e post hlog
  refine ⟨_, _, op, order_split hlog, hop, ?_⟩
  rw [hsource, ((h.stores hf hm hlog).run (hf.op hop) (hf.io e he)).2]

theorem Sequenced.source (h : s.Sequenced fs) (hp : s.Proper) (he : e ∈ s.log) : ∃ pre post op,
    s.order = pre ++ e.call :: post ∧ s.opOf e.call = some op ∧
      ((CodeMap.ofFiles fs).after (s.opsOf pre)).source op = e.source :=
  h.reads hp.faultless CodeMap.stores_ofFiles he

theorem allows_upload {name : String} {code : ByteArray} {io : Io} (hio : io.Succeeds) :
    m.Allows (.uploadWorker name code)
      (.uploaded (err (CodeStore.uploadWorkerCode fs io name code).2)) := by
  cases hv : validName name with
  | false => simp [CodeMap.Allows, hv, CodeStore.upload_invalid hv, err]
  | true => simp [CodeMap.Allows, hv, CodeMap.upload_succeeds hv hio, err]

theorem Sequenced.returned (h : s.Sequenced fs) (hp : s.Proper)
    (hm : .returned call answer ∈ s.history) : ∃ pre post op,
      s.order = pre ++ call :: post ∧ s.opOf call = some op ∧
        ((CodeMap.ofFiles fs).after (s.opsOf pre)).Allows op answer := by
  have hplaced : call ∈ s.order := by
    refine h.heard.placed (fun hc => ?_) call answer hm
    simpa [hc, ServerlessPhase.serving] using hp.serving
  have hany : ∀ op, s.opOf call = some op → (∀ m : CodeMap, m.Allows op answer) → ∃ pre post op,
      s.order = pre ++ call :: post ∧ s.opOf call = some op ∧
        ((CodeMap.ofFiles fs).after (s.opsOf pre)).Allows op answer := by
    intro op hop hall
    obtain ⟨pre, post, horder⟩ := List.append_of_mem hplaced
    exact ⟨pre, post, op, horder, hop, hall _⟩
  obtain hr | ⟨rfl, name, hop⟩ := h.heard.replied call answer hm
  · cases answer with
    | uploaded result =>
      obtain ⟨pre, e, post, name, code, hlog, rfl, hop, rfl⟩ := h.answered.uploaded call result hr
      exact hany _ hop fun m => allows_upload (hp.io e (by simp [hlog]))
    | created result =>
      obtain ⟨⟨name, hop⟩, e, he, rfl, hsource⟩ := h.answered.created call result hr
      obtain ⟨pre, post, op, horder, hop', hread⟩ := h.source hp he
      obtain rfl : .createWorker name = op := Option.some.inj (hop.symm.trans hop')
      refine ⟨pre, post, _, horder, hop, ?_⟩
      cases result with
      | none => exact .inl rfl
      | some ids => exact .inr ⟨ids, rfl, by rw [hread]; exact hsource rfl⟩
    | removed => exact absurd hr (h.answered.removed call)
    | http body =>
      obtain ⟨pod, wrk, hop⟩ := h.answered.http call body hr
      exact hany _ hop fun m => .inr ⟨body, rfl⟩
    | dropped =>
      obtain ⟨pod, wrk, hop⟩ | ⟨hnot, -⟩ := h.answered.dropped call hr
      · exact hany _ hop fun m => .inl rfl
      · exact absurd hplaced hnot
  · exact hany _ hop fun m => rfl

end Positions

/-- The code store is a linearizable map from valid names to code. -/
theorem linearizable (h : (machine c).Run as s)
    (hr : (machine c).Guarded (fun _ a => Regular a) as) :
    s.Linearizes (CodeMap.ofFiles (start c).fs) := by
  have hs := sequenced_run h
  have hp : s.Labelled ∧ s.Proper := by
    refine h.invariant_of_guarded (P := fun s => s.Labelled ∧ s.Proper)
      ⟨labelled_start c, proper_start c⟩ ?_ hr
    intro s a s' ha ⟨hl, hp⟩ hstep
    have hstep := machine_sound hstep
    exact ⟨hl.step hstep, hp.step hl ha hstep⟩
  refine ⟨hs.ordered.nodup, ?_, hs.ordered.realTime, fun call answer => hs.returned hp.2, ?_⟩
  · intro i j c d hij hi hj heq
    exact hs.ordered.program i j _ _ hij (fifo_get hi) (fifo_get hj) heq
  · intro idx worker task htask
    obtain ⟨p, w, hget, hw, rfl⟩ := taskOf_eq_some.mp htask
    obtain ⟨e, he, hcall, hsource⟩ := (hs.labelled.pods idx p hget).tasks w (List.mem_of_getElem? hw)
    obtain ⟨pre, post, op, horder, hop, hread⟩ := hs.source hp.2 he
    rw [hcall] at horder hop
    exact ⟨pre, post, op, horder, hop, hread.trans hsource⟩

instance : DecidablePred Op.Valid
  | .createWorker _ | .removeWorker _ => inferInstanceAs (Decidable (_ = _))
  | .uploadWorker _ _ | .sendHttpToWorker _ _ => .isTrue trivial

instance : DecidablePred Io.Succeeds := fun io =>
  decidable_of_iff (io.write = .ok ∧ io.ok = true) ⟨fun h => ⟨h.1, h.2⟩, fun h => ⟨h.write, h.ok⟩⟩

instance : DecidablePred Regular
  | .issue _ op => inferInstanceAs (Decidable op.Valid)
  | .recv io => inferInstanceAs (Decidable io.Succeeds)
  | .shutdown | .serverExit => .isFalse id
  | .enqueue _ | .refuse _ | .abandon _ | .ret _ | .send | .pod _ _ => .isTrue trivial

def removeAndCreate : List RuntimeAct :=
  [.issue 0 (.removeWorker "a"), .issue 1 (.createWorker "a"), .enqueue 1, .enqueue 0, .ret 0,
    .recv {}, .send, .pod 0 .recv, .send, .pod 0 .recv, .ret 1, .recv {}, .issue 0 (.createWorker "a"),
    .enqueue 2, .recv {}, .ret 2]

theorem linearizable_removeAndCreate :
    ∃ s, (machine oneWorker).Run removeAndCreate s ∧ s.order = [1, 0, 2] ∧
      .returned 2 (.created none) ∈ s.history ∧
      s.Linearizes (CodeMap.ofFiles (start oneWorker).fs) := by
  obtain ⟨s, hs, ho, hr⟩ : ∃ s, (machine oneWorker).Run removeAndCreate s ∧ s.order = [1, 0, 2] ∧
      .returned 2 (.created none) ∈ s.history := ⟨_, rfl, by decide, by decide⟩
  exact ⟨s, hs, ho, hr, linearizable hs (by decide)⟩

end Runtime

end Serverlessd
