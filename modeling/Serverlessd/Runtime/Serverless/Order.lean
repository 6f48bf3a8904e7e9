import Serverlessd.Runtime.Serverless.CodeMap
import Serverlessd.Runtime.Serverless.Replies

namespace Serverlessd

namespace Runtime

variable {s s' : Runtime} {a : RuntimeAct} {idx worker r call : Nat} {p p' : PodTask} {o : PodOut}
variable {c : Config} {as : List RuntimeAct} {fs : FileSystem}

section Fifo

def fifo (s : Runtime) : Fifo Nat Answer where
  calls := s.calls.map fun c => (c.client, c.status)
  queue := s.queue.map Prod.fst
  taken := s.log.map Processed.call
  history := s.history

def order (s : Runtime) : List Nat := s.log.map Processed.call ++ s.queue.map Prod.fst

theorem fifo_setStatus {status : Fifo.Status} :
    (s.setStatus call status).fifo = s.fifo.setStatus call status := by
  simp only [fifo, setStatus, Fifo.setStatus, Fifo.mk.injEq, and_true]
  apply List.ext_getElem?
  intro i
  simp only [List.getElem?_map, List.getElem?_modify]
  cases s.calls[i]? with
  | none => rfl
  | some c =>
    simp only [Option.map_eq_map, Option.map_some]
    split <;> rfl

theorem fifo_record {event : Fifo.Event Answer} : (s.record event).fifo = s.fifo.record event := rfl

theorem fifo_get {client : Nat} {op : Op} {status : Fifo.Status}
    (h : s.calls[call]? = some ⟨client, op, status⟩) : s.fifo.calls[call]? = some (client, status) := by
  simp [fifo, h]

theorem fifo_finish {client : Nat} {op : Op} {status : Fifo.Status} {event : Fifo.Event Answer}
    (h : s.calls[call]? = some ⟨client, op, status⟩) (running : status ≠ .done)
    (ends : event = .abandoned call ∨ ∃ answer, event = .returned call answer) :
    Fifo.Step s.fifo ((s.setStatus call .done).record event).fifo := by
  rw [fifo_record, fifo_setStatus]
  exact .finish (fifo_get h) running ends

theorem fifo_of_handled {io : Io} {trigger : ServerlessTrigger} {queue : List (Nat × ServerlessTrigger)}
    (hh : Handled { s with queue } io call trigger s') :
    s'.fifo = { s.fifo with queue := queue.map Prod.fst, taken := s.fifo.taken ++ [call] } := by
  cases hh <;> simp [fifo]

theorem fifo_of_step (hs : Step s a s') : s'.fifo = s.fifo ∨ Fifo.Step s.fifo s'.fifo := by
  have hidle : ∀ {client : Nat}, (∀ c ∈ s.calls, c.client = client → c.status = .done) →
      ∀ c ∈ s.fifo.calls, c.1 = client → c.2 = .done := by
    intro client h c hc
    obtain ⟨x, hx, rfl⟩ := List.mem_map.mp hc
    exact h x hx
  cases hs with
  | issue idle =>
    refine .inr ?_
    have hstep := Fifo.Step.issue (hidle idle)
    simpa [fifo, Fifo.record, record] using hstep
  | @enqueue call client op sending =>
    have hqueue : ({ s with queue := s.queue ++ [(call, op.trigger call)] } : Runtime).fifo =
        { s.fifo with queue := s.fifo.queue ++ [call] } := by simp [fifo]
    rw [fifo_record, fifo_setStatus, hqueue]
    exact .inr (.send (fifo_get sending))
  | refuse sending => exact .inr (fifo_finish sending (by simp) (.inr ⟨_, rfl⟩))
  | abandonSending sending => exact .inr (fifo_finish sending (by simp) (.inl rfl))
  | abandonWaiting waiting => exact .inr (fifo_finish waiting (by simp) (.inl rfl))
  | ret waiting => exact .inr (fifo_finish waiting (by simp) (.inr ⟨_, rfl⟩))
  | recv phase head hh =>
    rw [fifo_of_handled hh]
    exact .inr (.take (by simp [fifo, head]))
  | failed => exact .inl (by simp [fifo])
  | pod => exact .inl (by simp [fifo, setPod])
  | joined | serverExit => exact .inr (by exact Fifo.Step.clear)
  | sent | noVacancy | allHalted | shutdown => exact .inl rfl

theorem ordered_start (c : Config) : (start c).fifo.Ordered := Fifo.ordered_empty

end Fifo

section Replay

def stored (fs : FileSystem) (log : List Processed) : FileSystem :=
  (log.getLast?.map Processed.fs).getD fs

@[simp] theorem stored_nil : stored fs [] = fs := rfl

@[simp] theorem stored_concat {log : List Processed} {e : Processed} :
    stored fs (log ++ [e]) = e.fs := by
  simp [stored]

structure Replayed (fs : FileSystem) (s : Runtime) : Prop where
  last : s.fs = stored fs s.log
  log : ∀ pre e post, s.log = pre ++ e :: post → ∃ op, s.opOf e.call = some op ∧
    e.fs = (op.run (stored fs pre) e.io).1 ∧ e.source = (op.run (stored fs pre) e.io).2

theorem log_of_handled {io : Io} {trigger : ServerlessTrigger} {op : Op}
    (ht : trigger = op.trigger call) (hh : Handled s io call trigger s') :
    s'.log = s.log ++ [⟨call, io, (op.run s.fs io).2, (op.run s.fs io).1⟩] ∧
      s'.fs = (op.run s.fs io).1 := by
  cases op <;> cases ht <;> cases hh <;> simp_all [Op.run]

theorem log_of_step (hs : Step s a s') (ha : ∀ io, a ≠ .recv io) : s'.log = s.log ∧ s'.fs = s.fs := by
  cases hs with
  | recv => exact absurd rfl (ha _)
  | failed => exact ⟨failed_log, failed_fs⟩
  | pod => exact ⟨emit_log, emit_fs⟩
  | _ => exact ⟨rfl, rfl⟩

theorem replayed_start (c : Config) : (start c).Replayed (start c).fs :=
  ⟨rfl, fun pre e post h => by simp [start] at h⟩

theorem Replayed.step (h : s.Replayed fs) (hl : s.Labelled) (hs : Step s a s') : s'.Replayed fs := by
  have hg := grows_of_step hs
  by_cases ha : ∃ io, a = .recv io
  · obtain ⟨io, rfl⟩ := ha
    cases hs with
    | @recv _ _ call trigger queue phase head hh =>
      obtain ⟨op, hop, ht⟩ := hl.queue _ (head ▸ List.mem_cons_self)
      obtain ⟨hlog, hfs⟩ := log_of_handled ht hh
      refine ⟨by rw [hlog, stored_concat, hfs], fun pre e post he => ?_⟩
      rw [hlog] at he
      obtain ⟨post', -, he⟩ | ⟨-, rfl, rfl⟩ := List.concat_eq_append_cons he
      · obtain ⟨op, ho, hrun⟩ := h.log pre e post' he
        exact ⟨op, hg.ops _ _ ho, hrun⟩
      · refine ⟨op, hg.ops _ _ hop, ?_⟩
        rw [← h.last]
        exact ⟨rfl, rfl⟩
  · obtain ⟨hlog, hfs⟩ := log_of_step hs fun io hio => ha ⟨io, hio⟩
    refine ⟨by rw [hlog, hfs, h.last], fun pre e post he => ?_⟩
    obtain ⟨op, ho, hrun⟩ := h.log pre e post (hlog ▸ he)
    exact ⟨op, hg.ops _ _ ho, hrun⟩

end Replay

section Answered

theorem http_of_held (hl : s.PodLabelled idx p) (ht : s.Traced) (get : s.pods[idx]? = some p)
    (h : 0 < p.held r) : ∃ pod wrk, s.opOf r = some (.sendHttpToWorker pod wrk) := by
  by_cases hq : r ∈ p.queued
  · obtain ⟨t, ht, hr⟩ := List.mem_flatMap.mp hq
    have haddr := hl.queue t ht
    cases t with
    | toWorker id trigger => exact ⟨_, _, haddr r hr⟩
    | checkVacancies | createWorker | halt => cases hr
  by_cases hh : r ∈ p.handling
  · unfold PodTask.handling at hh
    split at hh
    · exact ⟨_, _, hl.forwarding _ _ ‹_› r hh⟩
    · cases hh
  have hw : p.working r ≠ 0 := by
    rw [PodTask.held, List.count_eq_zero.mpr hq, List.count_eq_zero.mpr hh] at h
    omega
  obtain ⟨w, hm, hpos⟩ : ∃ w ∈ p.tasks, 0 < w.held r := by
    by_contra hnone
    refine hw (List.sum_eq_zero fun n hn => ?_)
    obtain ⟨w, hw, rfl⟩ := List.mem_map.mp hn
    exact Nat.eq_zero_of_not_pos fun hpos => hnone ⟨w, hw, hpos⟩
  obtain ⟨worker, hworker⟩ := List.mem_iff_getElem?.mp hm
  exact ⟨_, _, (ht.delivered _ (ht.held idx p worker w r get hworker hpos)).1⟩

inductive Replied (s s' : Runtime) (call : Nat) : Answer → Prop
  | uploaded {name : String} {code : ByteArray} {io : Io}
      (op : s.opOf call = some (.uploadWorker name code))
      (log : s'.log = s.log ++ [⟨call, io, none, (CodeStore.uploadWorkerCode s.fs io name code).1⟩]) :
      Replied s s' call (.uploaded (err (CodeStore.uploadWorkerCode s.fs io name code).2))
  | created {name : String} {result : Option (Nat × Nat)} {e : Processed}
      (op : s.opOf call = some (.createWorker name)) (mem : e ∈ s'.log) (entry : e.call = call)
      (source : result.isSome → e.source.isSome) : Replied s s' call (.created result)
  | http {pod wrk : Nat} {answer : Answer} (op : s.opOf call = some (.sendHttpToWorker pod wrk))
      (lost : answer = .dropped ∨ ∃ body, answer = .http body) : Replied s s' call answer
  | unsent {client : Nat} {op : Op} (sending : s.calls[call]? = some ⟨client, op, .sending⟩)
      (done : s'.calls[call]? = some ⟨client, op, .done⟩) (order : s'.order = s.order) :
      Replied s s' call .dropped
  | unread (mem : call ∈ s.queue.map Prod.fst) (order : s'.order = s.log.map Processed.call)
      (calls : s'.calls = s.calls) : Replied s s' call .dropped

variable {answer : Answer}

theorem mem_answer {n : Nat} {a : Answer} (h : (call, answer) ∈ (s.answer n a).replies) :
    (call, answer) ∈ s.replies ∨ call = n ∧ answer = a := by
  simpa using h

theorem mem_drop {replies : List Nat} (h : (call, answer) ∈ (s.drop replies).replies) :
    (call, answer) ∈ s.replies ∨ call ∈ replies ∧ answer = .dropped := by
  obtain h | h := List.mem_append.mp h
  · exact .inl h
  · obtain ⟨r, hr, heq⟩ := List.mem_map.mp h
    cases heq
    exact .inr ⟨hr, rfl⟩

theorem replied_created (hl : s.Labelled) {source : String} (ht : s.Started ⟨source, call⟩)
    (hlog : s'.log = s.log) {result : Option (Nat × Nat)} : Replied s s' call (.created result) := by
  obtain ⟨name, ho⟩ := hl.started ht
  obtain ⟨e, he, hc, hs⟩ := ht
  exact .created ho (hlog ▸ he) hc (by simp [hs])

theorem replied_of_handled {io : Io} {n : Nat} {trigger : ServerlessTrigger} {op : Op}
    {queue : List (Nat × ServerlessTrigger)} (hop : s.opOf n = some op) (ht : trigger = op.trigger n)
    (hh : Handled { s with queue } io n trigger s')
    (h : (call, answer) ∈ s'.replies) : (call, answer) ∈ s.replies ∨ Replied s s' call answer := by
  cases op with
  | createWorker name =>
    cases ht
    cases hh with
    | unreadable =>
      obtain h | ⟨rfl, rfl⟩ := mem_answer h
      · exact .inl h
      · exact .inr (.created hop (List.mem_append_right _ List.mem_cons_self) rfl (by simp))
    | readable => exact .inl h
  | uploadWorker name code =>
    cases ht
    cases hh with
    | upload =>
      obtain h | ⟨rfl, rfl⟩ := mem_answer h
      · exact .inl h
      · exact .inr (.uploaded hop rfl)
  | removeWorker name =>
    cases ht
    cases hh
    exact .inl h
  | sendHttpToWorker pod wrk =>
    cases ht
    cases hh with
    | forward => exact .inl h
    | unknown =>
      obtain h | ⟨hr, rfl⟩ := mem_drop h
      · exact .inl h
      · obtain rfl := List.mem_singleton.mp hr
        exact .inr (.http hop (.inl rfl))

theorem replied_of_failed (hl : s.Labelled) (h : (call, answer) ∈ s.failed.replies) :
    (call, answer) ∈ s.replies ∨ Replied s s.failed call answer := by
  have hphase := hl.phase
  cases hp : s.phase with
  | placing task i =>
    simp only [failed, hp] at h hphase ⊢
    obtain h | ⟨rfl, rfl⟩ := mem_answer h
    · exact .inl h
    · exact .inr (replied_created hl hphase (by rfl))
  | awaitingWorker n i =>
    simp only [failed, hp] at h hphase ⊢
    obtain ⟨source, hs⟩ := hphase
    obtain h | ⟨rfl, rfl⟩ := mem_answer h
    · exact .inl h
    · exact .inr (replied_created hl hs (by rfl))
  | forwarding id trigger =>
    simp only [failed, hp] at h hphase ⊢
    obtain ⟨wrk, r, rfl, ho⟩ := hphase
    obtain h | ⟨hr, rfl⟩ := mem_drop h
    · exact .inl h
    · obtain rfl := List.mem_singleton.mp hr
      exact .inr (.http ho (.inl rfl))
  | selecting | finding | awaitingVacancy | halting | awaitingHalt | joining | closed =>
    simp only [failed, hp] at h
    exact .inl h

theorem replied_of_deliver (hl : s.Labelled) {t : Runtime} (hp : t.phase = s.phase)
    (hlog : t.log = s.log) {reply : Option PodReply} (h : (call, answer) ∈ (t.deliver reply).replies) :
    (call, answer) ∈ t.replies ∨ Replied s (t.deliver reply) call answer := by
  have hphase := hl.phase
  rw [← hp] at hphase
  unfold deliver at h ⊢
  split at h
  · exact .inl h
  · exact .inl h
  · rename_i n i id hawait
    rw [hawait] at hphase
    obtain ⟨source, hs⟩ := hphase
    obtain h | ⟨rfl, rfl⟩ := mem_answer h
    · exact .inl h
    · exact .inr (replied_created hl hs (by exact hlog))
  · exact .inl h
  · exact .inl h

theorem replied_of_unsent {client : Nat} {op : Op} {event : Fifo.Event Answer}
    (sending : s.calls[call]? = some ⟨client, op, .sending⟩) {n : Nat} (hn : n = call) :
    Replied s (((s.setStatus n .done).answer n .dropped).record event) call .dropped := by
  subst hn
  exact .unsent sending (by simp [setStatus, sending]) rfl

theorem replied_of_close (hl : s.Labelled) (h : (call, answer) ∈ s.close.replies) :
    (call, answer) ∈ s.replies ∨ Replied s s.close call answer := by
  obtain h | ⟨hr, rfl⟩ := mem_drop h
  · exact .inl h
  · obtain ⟨m, hm, hr⟩ := List.mem_flatMap.mp hr
    obtain ⟨op, -, ht⟩ := hl.queue m hm
    have hcall : call = m.1 := by
      rw [ht] at hr
      cases op with
      | removeWorker => cases hr
      | createWorker | uploadWorker | sendHttpToWorker => exact List.mem_singleton.mp hr
    exact .inr (.unread (hcall ▸ List.mem_map_of_mem hm) (List.append_nil _) rfl)

theorem replied_of_step (hl : s.Labelled) (ht : s.Traced) (hs : Step s a s')
    (h : (call, answer) ∈ s'.replies) : (call, answer) ∈ s.replies ∨ Replied s s' call answer := by
  cases hs with
  | issue | enqueue | abandonWaiting | ret | sent | allHalted | shutdown => exact .inl h
  | refuse sending | abandonSending sending =>
    obtain h | ⟨rfl, rfl⟩ := mem_answer h
    · exact .inl h
    · exact .inr (replied_of_unsent sending rfl)
  | @recv _ io n trigger queue phase head hh =>
    obtain ⟨op, hop, htrigger⟩ := hl.queue _ (head ▸ List.mem_cons_self)
    exact replied_of_handled hop htrigger hh h
  | failed => exact replied_of_failed hl h
  | noVacancy phase =>
    obtain h | ⟨rfl, rfl⟩ := mem_answer h
    · exact .inl h
    · have hphase := hl.phase
      rw [phase] at hphase
      exact .inr (replied_created hl hphase (by rfl))
  | joined | serverExit => exact replied_of_close hl h
  | @pod idx b p p' o get closed hstep =>
    rw [emit_eq] at h ⊢
    obtain h | h := replied_of_deliver (t := (s.setPod idx p').given idx o) hl rfl rfl h
    · obtain h | h := List.mem_append.mp h
      · exact .inl h
      · obtain ⟨⟨r, body⟩, hr, heq⟩ := List.mem_map.mp h
        cases heq
        have hheld := PodTask.held_step (r := r) hstep
        have hpos : 0 < resolved o.replies r :=
          List.count_pos_iff.mpr (List.mem_map.mpr ⟨_, hr, rfl⟩)
        obtain ⟨pod, wrk, ho⟩ := http_of_held (hl.pods idx p get) ht get (r := r) (by omega)
        refine .inr (.http ho ?_)
        cases body with
        | none => exact .inl rfl
        | some body => exact .inr ⟨body, rfl⟩
    · exact .inr h

/-- A reply that was given is that of a processed message; only HTTP events, messages that
were not sent and messages that are not processed lose theirs. -/
structure Answered (fs : FileSystem) (s : Runtime) : Prop where
  uploaded : ∀ call result, (call, .uploaded result) ∈ s.replies → ∃ pre e post name code,
    s.log = pre ++ e :: post ∧ e.call = call ∧ s.opOf call = some (.uploadWorker name code) ∧
      result = err (CodeStore.uploadWorkerCode (stored fs pre) e.io name code).2
  created : ∀ call result, (call, .created result) ∈ s.replies →
    (∃ name, s.opOf call = some (.createWorker name)) ∧
      ∃ e ∈ s.log, e.call = call ∧ (result.isSome → e.source.isSome)
  removed : ∀ call, (call, .removed) ∉ s.replies
  http : ∀ call body, (call, .http body) ∈ s.replies →
    ∃ pod wrk, s.opOf call = some (.sendHttpToWorker pod wrk)
  dropped : ∀ call, (call, .dropped) ∈ s.replies →
    (∃ pod wrk, s.opOf call = some (.sendHttpToWorker pod wrk)) ∨
      call ∉ s.order ∧ s.fifo.Left call

theorem answered_start (c : Config) : (start c).Answered fs := by
  constructor <;> simp [start]

theorem log_prefix_of_step (hl : s.Labelled) (hs : Step s a s') : s.log <+: s'.log := by
  by_cases ha : ∃ io, a = .recv io
  · obtain ⟨io, rfl⟩ := ha
    cases hs with
    | @recv _ _ call trigger queue phase head hh =>
      obtain ⟨op, -, ht⟩ := hl.queue _ (head ▸ List.mem_cons_self)
      rw [(log_of_handled ht hh).1]
      exact List.prefix_append _ _
  · exact (log_of_step hs fun io hio => ha ⟨io, hio⟩).1 ▸ List.prefix_rfl

theorem left_of_step (hs : Step s a s') (h : s.fifo.Left call) : s'.fifo.Left call :=
  (fifo_of_step hs).elim (fun heq => heq ▸ h) fun hstep => Fifo.left_of_step hstep h

theorem not_mem_order_of_step (hs : Step s a s') (h : call ∉ s.order) (hleft : s.fifo.Left call) :
    call ∉ s'.order := by
  obtain heq | hstep := fifo_of_step hs
  · have horder : s'.order = s.order := congrArg Fifo.order heq
    rwa [horder]
  · intro hm
    obtain hm | ⟨client, hc⟩ := Fifo.mem_order_of_step hstep (i := call) hm
    · exact h hm
    · obtain ⟨c, hget, hne⟩ := hleft
      obtain rfl := Option.some.inj (hc.symm.trans hget)
      exact hne rfl

theorem Answered.step (h : s.Answered fs) (hl : s.Labelled) (ht : s.Traced) (hr : s.Replayed fs)
    (ho : s.fifo.Ordered) (hs : Step s a s') : s'.Answered fs := by
  have hg := grows_of_step hs
  obtain ⟨tail, hlog⟩ := log_prefix_of_step hl hs
  constructor
  · intro call result hm
    obtain hm | hnew := replied_of_step hl ht hs hm
    · obtain ⟨pre, e, post, name, code, he, hc, hop, hres⟩ := h.uploaded call result hm
      exact ⟨pre, e, post ++ tail, name, code, by simp [← hlog, he], hc, hg.ops _ _ hop, hres⟩
    · cases hnew with
      | uploaded op log =>
        exact ⟨s.log, _, [], _, _, log, rfl, hg.ops _ _ op, by rw [← hr.last]⟩
      | http op lost => simp at lost
  · intro call result hm
    obtain hm | hnew := replied_of_step hl ht hs hm
    · obtain ⟨⟨name, hop⟩, e, he, hrest⟩ := h.created call result hm
      exact ⟨⟨name, hg.ops _ _ hop⟩, e, hg.log e he, hrest⟩
    · cases hnew with
      | created op mem entry source => exact ⟨⟨_, hg.ops _ _ op⟩, _, mem, entry, source⟩
      | http op lost => simp at lost
  · intro call hm
    obtain hm | hnew := replied_of_step hl ht hs hm
    · exact h.removed call hm
    · cases hnew with
      | http op lost => simp at lost
  · intro call body hm
    obtain hm | hnew := replied_of_step hl ht hs hm
    · obtain ⟨pod, wrk, hop⟩ := h.http call body hm
      exact ⟨pod, wrk, hg.ops _ _ hop⟩
    · cases hnew with
      | http op => exact ⟨_, _, hg.ops _ _ op⟩
  · intro call hm
    obtain hm | hnew := replied_of_step hl ht hs hm
    · obtain ⟨pod, wrk, hop⟩ | ⟨hnot, hleft⟩ := h.dropped call hm
      · exact .inl ⟨pod, wrk, hg.ops _ _ hop⟩
      · exact .inr ⟨not_mem_order_of_step hs hnot hleft, left_of_step hs hleft⟩
    · cases hnew with
      | http op => exact .inl ⟨_, _, hg.ops _ _ op⟩
      | unsent sending done order =>
        refine .inr ⟨order ▸ ho.not_mem_of_sending (fifo_get sending), _, fifo_get done, by simp⟩
      | unread mem order calls =>
        have hnodup : s.order.Nodup := ho.nodup
        refine .inr ⟨?_, ?_⟩
        · rw [order]
          exact fun hlog => (List.nodup_append.mp hnodup).2.2 call hlog call mem rfl
        · obtain ⟨c, hc, hne⟩ := ho.left call (List.mem_append_right _ mem)
          exact ⟨c, by simpa [fifo, calls] using hc, hne⟩

structure Heard (s : Runtime) : Prop where
  replied : ∀ call answer, .returned call answer ∈ s.history → (call, answer) ∈ s.replies ∨
    answer = .removed ∧ ∃ name, s.opOf call = some (.removeWorker name)
  complete : s.phase ≠ .closed → s.fifo.Complete
  placed : s.phase ≠ .closed → ∀ call answer, .returned call answer ∈ s.history → call ∈ s.order

theorem closed_of_step (hs : Step s a s') (h : s.phase = .closed) : s'.phase = .closed := by
  cases hs with
  | issue | enqueue | refuse | abandonSending | abandonWaiting | ret => exact h
  | recv phase | noVacancy phase | allHalted phase | joined phase | shutdown phase
  | serverExit phase => cases h.symm.trans phase
  | sent sends => simp [h, ServerlessPhase.sends] at sends
  | failed needs => simp [h, ServerlessPhase.sends, ServerlessPhase.awaits] at needs
  | @pod idx b p p' o =>
    have hgiven : ((s.setPod idx p').given idx o).phase = .closed := h
    rw [emit_eq]
    unfold deliver
    split <;> simp_all

theorem order_of_step (hs : Step s a s') (h : s'.phase ≠ .closed) (hm : call ∈ s.order) :
    call ∈ s'.order := by
  cases hs with
  | joined | serverExit => exact absurd rfl h
  | @enqueue n =>
    have horder : s.order ++ [n] = s.log.map Processed.call ++ (s.queue.map Prod.fst ++ [n]) :=
      List.append_assoc ..
    have hmem := horder ▸ List.mem_append_left [n] hm
    simpa [order] using hmem
  | recv phase head hh =>
    have hcall : call ∈ s'.fifo.order := by
      rw [fifo_of_handled hh]
      simpa [order, fifo, Fifo.order, head] using hm
    exact hcall
  | failed => simpa [order] using hm
  | pod => simpa [order, setPod] using hm
  | issue | refuse | abandonSending | abandonWaiting | ret | sent | noVacancy | allHalted
  | shutdown => exact hm

theorem heard_start (c : Config) : (start c).Heard := by
  constructor <;> simp [start, Fifo.Complete, fifo]

theorem returned_of_step (hs : Step s a s') (h : .returned call answer ∈ s'.history) :
    .returned call answer ∈ s.history ∨ answer = .dropped ∧ s.phase = .closed ∧
      (call, .dropped) ∈ s'.replies ∨ ∃ client op, s.calls[call]? = some ⟨client, op, .waiting⟩ ∧
        s.answerOf call op = some answer := by
  cases hs with
  | issue | enqueue | abandonSending | abandonWaiting => exact .inl (by simpa using h)
  | refuse sending rx =>
    obtain h | heq : .returned call answer ∈ s.history ∨ call = _ ∧ answer = .dropped := by
      simpa using h
    · exact .inl h
    · obtain ⟨rfl, rfl⟩ := heq
      exact .inr (.inl ⟨rfl, by simpa [rxOpen] using rx, by simp⟩)
  | @ret n client op x waiting ready =>
    obtain h | ⟨rfl, rfl⟩ : .returned call answer ∈ s.history ∨ call = n ∧ answer = x := by
      simpa using h
    · exact .inl h
    · exact .inr (.inr ⟨client, op, waiting, ready⟩)
  | recv phase head hh => exact .inl (by cases hh <;> exact h)
  | failed => exact .inl (by simpa using h)
  | pod => exact .inl (by simpa [setPod] using h)
  | sent | noVacancy | allHalted | joined | shutdown | serverExit => exact .inl h

theorem mem_of_lookup {l : List (Nat × Answer)} (h : l.lookup call = some answer) :
    (call, answer) ∈ l := by
  obtain ⟨l₁, l₂, rfl, -⟩ := List.lookup_eq_some_iff.mp h
  simp

theorem Heard.step (h : s.Heard) (hs : Step s a s') : s'.Heard := by
  have hg := grows_of_step hs
  have hopen : s'.phase ≠ .closed → s.phase ≠ .closed := fun hne hc => hne (closed_of_step hs hc)
  constructor
  · intro call answer hm
    obtain hm | ⟨rfl, -, hm⟩ | ⟨client, op, hget, hanswer⟩ := returned_of_step hs hm
    · obtain hr | ⟨rfl, name, hop⟩ := h.replied call answer hm
      · exact .inl ((replies_of_step hs).subset hr)
      · exact .inr ⟨rfl, name, hg.ops _ _ hop⟩
    · exact .inl hm
    · cases op with
      | removeWorker name =>
        exact .inr ⟨(Option.some.inj hanswer).symm, name, hg.ops _ _ (by simp [opOf, hget])⟩
      | createWorker | uploadWorker | sendHttpToWorker =>
        exact .inl ((replies_of_step hs).subset (mem_of_lookup hanswer))
  · intro hne
    have hc := h.complete (hopen hne)
    obtain heq | hstep := fifo_of_step hs
    · rwa [heq]
    · exact hc.step hstep fun i hi => order_of_step hs hne hi
  · intro hne call answer hm
    obtain hm | ⟨-, hc, -⟩ | ⟨client, op, hget, -⟩ := returned_of_step hs hm
    · exact order_of_step hs hne (h.placed (hopen hne) call answer hm)
    · exact absurd hc (hopen hne)
    · exact order_of_step hs hne (h.complete (hopen hne) call client (fifo_get hget))

end Answered

structure Sequenced (fs : FileSystem) (s : Runtime) : Prop where
  labelled : s.Labelled
  traced : s.Traced
  ordered : s.fifo.Ordered
  replayed : s.Replayed fs
  answered : s.Answered fs
  heard : s.Heard

theorem Sequenced.step (h : s.Sequenced fs) (hs : Step s a s') : s'.Sequenced fs where
  labelled := h.labelled.step hs
  traced := h.traced.step h.labelled hs
  ordered := (fifo_of_step hs).elim (fun heq => heq ▸ h.ordered) h.ordered.step
  replayed := h.replayed.step h.labelled hs
  answered := h.answered.step h.labelled h.traced h.replayed h.ordered hs
  heard := h.heard.step hs

theorem sequenced_run (h : (machine c).Run as s) : s.Sequenced (start c).fs :=
  run_invariant ⟨labelled_start c, traced_start c, ordered_start c, replayed_start c,
    answered_start c, heard_start c⟩ Sequenced.step h

end Runtime

end Serverlessd
