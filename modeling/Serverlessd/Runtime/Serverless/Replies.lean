import Serverlessd.Runtime.Pod.Replies
import Serverlessd.Runtime.Serverless.Routing

namespace Serverlessd

namespace Runtime

variable {s s' : Runtime} {a : RuntimeAct} {idx worker r call : Nat} {p p' : PodTask} {o : PodOut}
variable {c : Config} {as : List RuntimeAct} {status : Fifo.Status}

def sending (s : Runtime) (r : Nat) : Nat :=
  if (s.calls[r]?).map Call.status = some .sending then 1 else 0

def queued (s : Runtime) : List Nat := s.queue.flatMap fun m => m.2.replies

def handling (s : Runtime) : List Nat :=
  match s.phase with
  | .forwarding _ trigger => trigger.replies
  | _ => []

def working (s : Runtime) (r : Nat) : Nat := (s.pods.map fun p => p.held r).sum

/-- How often the reply `r` is on its way: with its client, in a queue, in a message being
handled, and in the repliers of a worker. -/
def held (s : Runtime) (r : Nat) : Nat :=
  s.sending r + s.queued.count r + s.handling.count r + s.working r

def answered (s : Runtime) (r : Nat) : Nat := (s.replies.map Prod.fst).count r

def total (s : Runtime) (r : Nat) : Nat := s.held r + s.answered r

def IsHttp (s : Runtime) (r : Nat) : Prop :=
  ∀ op, s.opOf r = some op → ∃ pod wrk, op = .sendHttpToWorker pod wrk

section Parts

theorem sending_of_status {client : Nat} {op : Op} (h : s.calls[call]? = some ⟨client, op, status⟩) :
    s.sending call = if status = .sending then 1 else 0 := by
  simp [sending, h]

theorem sending_setStatus_self (h : status ≠ .sending) : (s.setStatus call status).sending call = 0 := by
  simp only [sending, setStatus, List.getElem?_modify]
  cases s.calls[call]? <;> simp [h]

theorem sending_setStatus_ne (h : r ≠ call) : (s.setStatus call status).sending r = s.sending r := by
  simp [sending, setStatus, h.symm]

@[simp] theorem answered_drop (replies : List Nat) :
    (s.drop replies).answered r = s.answered r + replies.count r := by
  simp [answered, Function.comp_def]

theorem answered_answer {answer : Answer} :
    (s.answer call answer).answered r = s.answered r + [call].count r := by
  simp [answered]

theorem count_answers (replies : List (Nat × Option String)) :
    ((answers replies).map Prod.fst).count r = resolved replies r := by
  simp [answers, resolved, Function.comp_def]

theorem IsHttp.not_call (h : s.IsHttp r) {name : String}
    (ho : s.opOf call = some (.createWorker name)) : [call].count r = 0 := by
  refine List.count_eq_zero.mpr fun hm => ?_
  obtain rfl := List.mem_singleton.mp hm
  obtain ⟨pod, wrk, heq⟩ := h _ ho
  cases heq

theorem working_set (get : s.pods[idx]? = some p) :
    (s.setPod idx p').working r + p.held r = s.working r + p'.held r :=
  List.sum_map_set get

end Parts

theorem total_start (c : Config) : (start c).total r = 0 := by
  simp [total, held, sending, queued, handling, working, answered, start, PodTask.held_start]

theorem total_handled (hr : s.IsHttp r) (hs : s.phase = .selecting) {io : Io}
    {trigger : ServerlessTrigger} {op : Op} (hop : s.opOf call = some op)
    (ht : trigger = op.trigger call) (hh : Handled s io call trigger s') :
    s'.total r = s.total r + trigger.replies.count r := by
  have hframe : s'.sending r = s.sending r ∧ s'.queued = s.queued ∧ s'.working r = s.working r := by
    cases hh <;> exact ⟨rfl, rfl, rfl⟩
  have hnone : ∀ {t : Runtime}, t.phase = .selecting → t.handling = [] := by
    intro t ht
    simp only [handling, ht]
  have hmoved : s'.handling.count r + s'.answered r = s.answered r + trigger.replies.count r := by
    cases hh with
    | unreadable | upload =>
      rw [hnone (by exact hs), answered_answer]
      exact Nat.zero_add _
    | unknown =>
      rw [hnone (by exact hs), answered_drop]
      exact Nat.zero_add _
    | remove =>
      rw [hnone (by exact hs)]
      exact Nat.zero_add _
    | forward => exact Nat.add_comm _ _
    | @readable name reply source =>
      cases op <;> cases ht
      simp only [ServerlessTrigger.replies, hr.not_call hop]
      exact Nat.zero_add _
  simp only [total, held, hframe, hnone hs, List.count_nil]
  omega

theorem total_setStatus {client : Nat} {op : Op} {old : Fifo.Status}
    (get : s.calls[call]? = some ⟨client, op, old⟩) (hne : status ≠ .sending) :
    (s.setStatus call status).total r + (if old = .sending then [call].count r else 0) = s.total r := by
  have hframe : (s.setStatus call status).queued = s.queued ∧
      (s.setStatus call status).handling = s.handling ∧
      (s.setStatus call status).working r = s.working r ∧
      (s.setStatus call status).answered r = s.answered r := ⟨rfl, rfl, rfl, rfl⟩
  simp only [total, held, hframe]
  by_cases hcall : r = call
  · subst hcall
    rw [sending_setStatus_self hne, sending_of_status get, List.count_singleton_self]
    omega
  · have hcount : [call].count r = 0 := List.count_eq_zero.mpr (by simpa using hcall)
    rw [sending_setStatus_ne hcall, hcount, ite_self, Nat.add_zero]

theorem IsHttp.count_trigger (hr : s.IsHttp r) {op : Op} (hop : s.opOf call = some op) :
    (op.trigger call).replies.count r = [call].count r := by
  cases op with
  | removeWorker name =>
    refine (List.count_eq_zero.mpr fun hm => ?_).symm
    obtain rfl := List.mem_singleton.mp hm
    obtain ⟨pod, wrk, heq⟩ := hr _ hop
    cases heq
  | createWorker | uploadWorker | sendHttpToWorker => rfl

theorem total_enqueue (hr : s.IsHttp r) {client : Nat} {op : Op}
    (get : s.calls[call]? = some ⟨client, op, .sending⟩) :
    (({ s with queue := s.queue ++ [(call, op.trigger call)] }.setStatus call .waiting).total r =
      s.total r) := by
  have hqueue : ({ s with queue := s.queue ++ [(call, op.trigger call)] } : Runtime).total r =
      s.total r + (op.trigger call).replies.count r := by
    simp only [total, held, sending, queued, handling, working, answered, List.flatMap_append,
      List.flatMap_singleton, List.count_append]
    omega
  have hstatus := @total_setStatus { s with queue := s.queue ++ [(call, op.trigger call)] } r call .waiting
    _ _ _ get (by simp)
  rw [if_pos rfl, hqueue, hr.count_trigger (by simp [opOf, get])] at hstatus
  omega

theorem queued_push {trigger : PodTrigger} :
    ({ p with queue := p.queue ++ [trigger] } : PodTask).held r = p.held r + trigger.replies.count r := by
  simp only [PodTask.held, PodTask.queued, PodTask.handling, PodTask.working, List.flatMap_append,
    List.flatMap_singleton, List.count_append]
  omega

theorem total_sent (h : s.PhaseLabelled s.phase) {trigger : PodTrigger} {next : ServerlessPhase}
    (hsends : s.phase.sends = some (idx, trigger, next)) (get : s.pods[idx]? = some p) :
    (({ s with phase := next }.setPod idx { p with queue := p.queue ++ [trigger] }).total r =
      s.total r) := by
  have hset := @working_set s idx r p { p with queue := p.queue ++ [trigger] } get
  rw [queued_push] at hset
  have hmoved : ({ s with phase := next } : Runtime).handling.count r + trigger.replies.count r =
      s.handling.count r := by
    simp only [handling]
    cases hp : s.phase <;> rw [hp] at hsends h <;> cases hsends
    case finding | placing | halting => rfl
    case forwarding =>
      obtain ⟨wrk, r', rfl, -⟩ := h
      simp [PodTrigger.replies]
  have hframe : ∀ q, ({ s with phase := next }.setPod idx q).sending r = s.sending r ∧
      ({ s with phase := next }.setPod idx q).queued = s.queued ∧
      ({ s with phase := next }.setPod idx q).handling = ({ s with phase := next } : Runtime).handling ∧
      ({ s with phase := next }.setPod idx q).working r = (s.setPod idx q).working r ∧
      ({ s with phase := next }.setPod idx q).answered r = s.answered r :=
    fun q => ⟨rfl, rfl, rfl, rfl, rfl⟩
  simp only [total, held, hframe]
  omega

theorem total_answer {answer : Answer} :
    (s.answer call answer).total r = s.total r + [call].count r := by
  rw [total, answered_answer]
  exact (Nat.add_assoc _ _ _).symm

theorem total_set_phase {phase : ServerlessPhase} :
    ({ s with phase } : Runtime).total r + s.handling.count r =
      s.total r + ({ s with phase } : Runtime).handling.count r := by
  have hframe : ({ s with phase } : Runtime).sending r = s.sending r ∧
      ({ s with phase } : Runtime).queued = s.queued ∧
      ({ s with phase } : Runtime).working r = s.working r ∧
      ({ s with phase } : Runtime).answered r = s.answered r := ⟨rfl, rfl, rfl, rfl⟩
  simp only [total, held, hframe]
  omega

theorem total_phase {phase : ServerlessPhase} (hp : s.handling = [])
    (hp' : ({ s with phase } : Runtime).handling = []) :
    ({ s with phase } : Runtime).total r = s.total r := by
  simpa [hp, hp'] using @total_set_phase s r phase

theorem total_drop {replies : List Nat} :
    (s.drop replies).total r = s.total r + replies.count r := by
  rw [total, answered_drop]
  exact (Nat.add_assoc _ _ _).symm

theorem total_failed (hl : s.Labelled) (hr : s.IsHttp r) : s.failed.total r = s.total r := by
  have hphase := hl.phase
  have hrefused : ∀ {n name}, s.handling = [] → s.opOf n = some (.createWorker name) →
      ({ s with phase := .selecting }.answer n (.created none)).total r = s.total r := by
    intro n name hp ho
    rw [total_answer, hr.not_call ho]
    exact total_phase hp rfl
  unfold failed
  split
  · rename_i task i hp
    exact total_phase (by simp only [handling, hp]) rfl
  · rename_i task i hp
    exact total_phase (by simp only [handling, hp]) rfl
  · rename_i task i hp
    obtain ⟨name, ho⟩ := hl.started (hp ▸ hphase)
    exact hrefused (by simp only [handling, hp]) ho
  · rename_i n i hp
    obtain ⟨name, ho⟩ := hl.awaited hp
    exact hrefused (by simp only [handling, hp]) ho
  · rename_i id trigger hp
    have hh : s.handling = trigger.replies := by simp only [handling, hp]
    rw [total_drop, ← hh]
    exact total_set_phase
  · rename_i i hp
    exact total_phase (by simp only [handling, hp]) rfl
  · rename_i i hp
    exact total_phase (by simp only [handling, hp]) rfl
  · rfl

theorem total_deliver (ha : ∀ {n i}, s.phase = .awaitingWorker n i →
    ∃ name, s.opOf n = some (.createWorker name)) (hr : s.IsHttp r) (reply : Option PodReply) :
    (s.deliver reply).total r = s.total r := by
  unfold deliver
  split
  · rename_i task i hp
    exact total_phase (by simp only [handling, hp]) rfl
  · rename_i task i hp
    exact total_phase (by simp only [handling, hp]) rfl
  · rename_i n i id hp
    obtain ⟨name, ho⟩ := ha hp
    rw [total_answer, hr.not_call ho]
    exact total_phase (by simp only [handling, hp]) rfl
  · rename_i i hp
    exact total_phase (by simp only [handling, hp]) rfl
  · rfl

theorem total_close (hp : s.handling = []) : s.close.total r = s.total r := by
  have hframe : ({ s with phase := .closed, queue := [] } : Runtime).sending r = s.sending r ∧
      ({ s with phase := .closed, queue := [] } : Runtime).queued = [] ∧
      ({ s with phase := .closed, queue := [] } : Runtime).handling = [] ∧
      ({ s with phase := .closed, queue := [] } : Runtime).working r = s.working r ∧
      ({ s with phase := .closed, queue := [] } : Runtime).answered r = s.answered r :=
    ⟨rfl, rfl, rfl, rfl, rfl⟩
  have hq : (s.queue.flatMap fun (m : Nat × ServerlessTrigger) => m.2.replies) = s.queued := rfl
  rw [close, total_drop, hq]
  simp only [total, held, hframe, hp, List.count_nil]
  omega

theorem total_pod (hl : s.Labelled) (hr : s.IsHttp r) {b : PodAct} (get : s.pods[idx]? = some p)
    (hs : PodTask.Step p b p' o) : ((s.setPod idx p').emit idx o).total r = s.total r := by
  have hset := @working_set s idx r p p' get
  have hheld := PodTask.held_step (r := r) hs
  have hframe : ((s.setPod idx p').given idx o).sending r = s.sending r ∧
      ((s.setPod idx p').given idx o).queued = s.queued ∧
      ((s.setPod idx p').given idx o).handling = s.handling ∧
      ((s.setPod idx p').given idx o).working r = (s.setPod idx p').working r := ⟨rfl, rfl, rfl, rfl⟩
  have hanswered : ((s.setPod idx p').given idx o).answered r =
      s.answered r + resolved o.replies r := by
    simp only [answered, given, setPod, List.map_append, List.count_append, count_answers]
  rw [emit_eq, total_deliver (by exact hl.awaited) (by exact hr)]
  simp only [total, held, hframe, hanswered]
  omega

theorem total_step (hl : s.Labelled) (hr : s.IsHttp r) (hs : Step s a s')
    (hnew : ∀ client op, a = .issue client op → r ≠ s.calls.length) : s'.total r = s.total r := by
  cases hs with
  | @issue client op idle =>
    have hcall : (s.calls ++ [(⟨client, op, .sending⟩ : Call)])[r]? = s.calls[r]? := by
      have hne := hnew client op rfl
      grind
    simp only [total, held, sending, record_calls, hcall]
    rfl
  | enqueue sending => exact total_enqueue hr sending
  | refuse sending | abandonSending sending =>
    have hstatus := @total_setStatus s r _ .done _ _ _ sending (by simp)
    rw [if_pos rfl] at hstatus
    exact total_answer.trans hstatus
  | abandonWaiting waiting | ret waiting =>
    exact @total_setStatus s r _ .done _ _ _ waiting (by simp)
  | @recv _ io call trigger queue phase head hh =>
    obtain ⟨op, hop, ht⟩ := hl.queue _ (head ▸ List.mem_cons_self)
    have htotal := total_handled (r := r) (by exact hr) (by exact phase) (by exact hop) ht hh
    have hqueue : s.queued = trigger.replies ++ queue.flatMap fun m => m.2.replies := by
      simp [queued, head]
    rw [htotal]
    simp only [total, held, hqueue, List.count_append]
    simp only [sending, queued, handling, working, answered]
    omega
  | sent sends get => exact total_sent hl.phase sends get
  | failed => exact total_failed hl hr
  | noVacancy phase last =>
    obtain ⟨name, ho⟩ := hl.started (phase ▸ hl.phase)
    rw [total_answer, hr.not_call ho]
    exact total_phase (by simp only [handling, phase]) rfl
  | allHalted phase | shutdown phase =>
    exact total_phase (by simp only [handling, phase]) rfl
  | joined phase | serverExit phase => exact total_close (by simp only [handling, phase])
  | pod get closed hstep => exact total_pod hl hr get hstep

section Conserved

structure Conserved (s : Runtime) : Prop where
  fresh : ∀ r, s.opOf r = none → s.total r = 0
  http : ∀ r pod wrk, s.opOf r = some (.sendHttpToWorker pod wrk) → s.total r = 1

theorem conserved_start (c : Config) : (start c).Conserved :=
  ⟨fun _ _ => total_start c, fun r pod wrk h => by simp [opOf, start] at h⟩

theorem opOf_of_step (hs : Step s a s') {op : Op} (h : s'.opOf r = some op) :
    s.opOf r = some op ∨ r = s.calls.length ∧ ∃ client, a = .issue client op := by
  have hstatus : ∀ call status, (s.setStatus call status).opOf r = some op → s.opOf r = some op :=
    fun call status h => opOf_setStatus s call r status ▸ h
  cases hs with
  | @issue client op' idle =>
    obtain ⟨call, hc, rfl⟩ := Option.map_eq_some_iff.mp h
    obtain hc | ⟨hr, rfl⟩ := List.getElem?_concat_eq_some.mp hc
    · exact .inl (by simp [opOf, hc])
    · exact .inr ⟨hr, client, rfl⟩
  | enqueue | refuse | abandonSending | abandonWaiting | ret => exact .inl (hstatus _ _ h)
  | recv phase head hh => cases hh <;> exact .inl h
  | failed => exact .inl (by simpa [opOf] using h)
  | pod => exact .inl (by simpa [opOf, setPod] using h)
  | sent | noVacancy | allHalted | joined | shutdown | serverExit => exact .inl h

theorem total_issue {client : Nat} {op : Op} (h : s.total s.calls.length = 0) :
    (({ s with calls := s.calls ++ [(⟨client, op, .sending⟩ : Call)] }.record
      (.issued s.calls.length)).total s.calls.length) = 1 := by
  simp only [total, held, sending, queued, handling, working, answered] at h ⊢
  simp only [record_calls, record_queue, record_phase, record_pods, record_replies,
    List.getElem?_concat_length, Option.map_some, if_true]
  omega

theorem Conserved.step (h : s.Conserved) (hl : s.Labelled) (hs : Step s a s') : s'.Conserved := by
  have hgrows := grows_of_step hs
  constructor
  · intro r hr
    have hnone : s.opOf r = none := by
      refine Option.eq_none_iff_forall_ne_some.mpr fun op ho => ?_
      simp [hgrows.ops r op ho] at hr
    refine (total_step hl (by simp [IsHttp, hnone]) hs fun client op ha hlen => ?_).trans
      (h.fresh r hnone)
    cases hs <;> cases ha
    simp [opOf, hlen] at hr
  · intro r pod wrk ho
    obtain hold | ⟨rfl, client, rfl⟩ := opOf_of_step hs ho
    · refine (total_step hl (fun op ho => ⟨pod, wrk, ?_⟩) hs fun client op _ hlen => ?_).trans
        (h.http r pod wrk hold)
      · exact Option.some.inj (ho.symm.trans hold)
      · simp [opOf, hlen] at hold
    · cases hs
      exact total_issue (h.fresh _ (by simp [opOf]))

end Conserved

section Told

def workerAt (s : Runtime) (idx worker : Nat) : Option Worker :=
  (s.pods[idx]?).bind fun p => p.tasks[worker]?

theorem workerAt_eq_some {w : Worker} :
    s.workerAt idx worker = some w ↔ ∃ p, s.pods[idx]? = some p ∧ p.tasks[worker]? = some w :=
  Option.bind_eq_some_iff

def HeldBy (s : Runtime) (r idx worker : Nat) : Prop :=
  ∃ w, s.workerAt idx worker = some w ∧ 0 < w.held r

def Retains (s : Runtime) : Prop :=
  ∀ r idx worker, (r, idx, worker) ∈ s.delivered →
    ∃ w, s.workerAt idx worker = some w ∧ 0 < w.held r + s.answered r

theorem Retains.held (h : s.Retains) (hd : (r, idx, worker) ∈ s.delivered) (ha : s.answered r = 0) :
    s.HeldBy r idx worker := by
  obtain ⟨w, hw, hpos⟩ := h r idx worker hd
  exact ⟨w, hw, by omega⟩

theorem retains_start (c : Config) : (start c).Retains := by simp [Retains, start]

structure Told (s : Runtime) : Prop where
  pods : ∀ p ∈ s.pods, p.Sound
  told : ∀ r body, (r, .http body) ∈ s.replies → body ≠ "" →
    ∃ idx worker w, s.workerAt idx worker = some w ∧ w.FulfilledWith r body

theorem told_start (c : Config) : (start c).Told where
  pods := by
    intro p hp
    obtain ⟨-, rfl⟩ := List.mem_replicate.mp hp
    simp [PodTask.Sound, PodTask.start]
  told := by simp [start]

theorem replies_of_deliver {reply : Option PodReply} : s.replies <+: (s.deliver reply).replies := by
  unfold deliver
  split <;> simp

theorem replies_of_emit : s.replies ++ answers o.replies <+: (s.emit idx o).replies :=
  replies_of_deliver (s := s.given idx o)

theorem replies_of_step (hs : Step s a s') : s.replies <+: s'.replies := by
  cases hs with
  | recv phase head hh => cases hh <;> simp
  | failed =>
    unfold failed
    split <;> simp
  | joined | serverExit => simp [close]
  | pod => exact (List.prefix_append _ _).trans (replies_of_emit (s := s.setPod _ _))
  | issue | enqueue | refuse | abandonSending | abandonWaiting | ret | noVacancy => simp
  | sent | allHalted | shutdown => exact List.prefix_rfl

theorem answered_of_step (hs : Step s a s') : s.answered r ≤ s'.answered r :=
  ((replies_of_step hs).map _).sublist.count_le r

theorem answered_emit :
    s.answered r + resolved o.replies r ≤ ((s.setPod idx p').emit idx o).answered r := by
  have hle : s.replies ++ answers o.replies <+: ((s.setPod idx p').emit idx o).replies :=
    replies_of_emit (s := s.setPod idx p')
  have hcount := (hle.map Prod.fst).sublist.count_le r
  rwa [List.map_append, List.count_append, count_answers] at hcount

theorem workerAt_set {i : Nat} {w : Worker} (get : s.pods[idx]? = some p)
    (hw : s.workerAt i worker = some w) :
    i = idx ∧ p.tasks[worker]? = some w ∨
      i ≠ idx ∧ ∀ p', (s.setPod idx p').workerAt i worker = some w := by
  obtain ⟨q, hq, hw⟩ := workerAt_eq_some.mp hw
  by_cases hi : i = idx
  · subst hi
    obtain rfl : p = q := Option.some.inj (get.symm.trans hq)
    exact .inl ⟨rfl, hw⟩
  · refine .inr ⟨hi, fun p' => workerAt_eq_some.mpr ⟨q, ?_, hw⟩⟩
    rwa [setPod_pods, List.getElem?_set_ne (Ne.symm hi)]

theorem workerAt_set_self {w : Worker} (get : s.pods[idx]? = some p)
    (hw : p'.tasks[worker]? = some w) : (s.setPod idx p').workerAt idx worker = some w :=
  workerAt_eq_some.mpr ⟨p', List.getElem?_set_self (List.getElem?_eq_some_iff.mp get).1, hw⟩

theorem workerAt_emit {i : Nat} :
    ((s.setPod idx p').emit idx o).workerAt i worker = (s.setPod idx p').workerAt i worker := by
  simp only [workerAt, emit_pods]

theorem workerAt_sent {trigger : PodTrigger} {i : Nat} (get : s.pods[idx]? = some p) :
    (s.setPod idx { p with queue := p.queue ++ [trigger] }).workerAt i worker =
      s.workerAt i worker := by
  simp only [workerAt, setPod_pods, List.getElem?_set]
  split
  · rename_i hi
    obtain rfl := hi
    obtain ⟨hlt, rfl⟩ := List.getElem?_eq_some_iff.mp get
    simp [hlt]
  · rfl

theorem Retains.congr (h : s.Retains) (hworker : ∀ idx worker, s'.workerAt idx worker = s.workerAt idx worker)
    (hd : s'.delivered = s.delivered) (ha : ∀ r, s.answered r ≤ s'.answered r) : s'.Retains := by
  intro r idx worker hm
  obtain ⟨w, hw, hpos⟩ := h r idx worker (hd ▸ hm)
  exact ⟨w, (hworker _ _).trans hw, Nat.lt_of_lt_of_le hpos (Nat.add_le_add_left (ha r) _)⟩

theorem Retains.pod (h : s.Retains) {b : PodAct} (get : s.pods[idx]? = some p)
    (hs : PodTask.Step p b p' o) : ((s.setPod idx p').emit idx o).Retains := by
  intro r i worker hm
  rw [emit_delivered, List.mem_append] at hm
  have hle := @answered_emit s idx r p' o
  obtain hm | hm := hm
  · obtain ⟨w, hw, hpos⟩ := h r i worker hm
    obtain ⟨rfl, hw⟩ | ⟨-, hw⟩ := workerAt_set get hw
    · obtain ⟨w', hw', hmoved⟩ := PodTask.moved_of_step hs hw
      have hheld := hmoved.held (r := r)
      exact ⟨w', workerAt_emit.trans (workerAt_set_self get hw'), by omega⟩
    · exact ⟨w, workerAt_emit.trans (hw p'), by omega⟩
  · obtain ⟨⟨r', worker'⟩, hd, heq⟩ := List.mem_map.mp hm
    obtain ⟨rfl, rfl, rfl⟩ : r' = r ∧ idx = i ∧ worker' = worker := by simpa using heq
    obtain ⟨w', hw', hpos⟩ := PodTask.held_of_delivered hs hd
    exact ⟨w', workerAt_emit.trans (workerAt_set_self get hw'), by omega⟩

theorem Retains.step (h : s.Retains) (hs : Step s a s') : s'.Retains := by
  have hanswered : ∀ r, s.answered r ≤ s'.answered r := fun _ => answered_of_step hs
  have hsame : s'.pods = s.pods → s'.delivered = s.delivered → s'.Retains := fun hp hd =>
    h.congr (fun _ _ => by simp only [workerAt, hp]) hd hanswered
  cases hs with
  | pod get closed hstep => exact h.pod get hstep
  | recv phase head hh => exact hsame (by cases hh <;> rfl) (by cases hh <;> rfl)
  | failed => exact hsame failed_pods failed_delivered
  | sent sends get => exact h.congr (fun _ _ => workerAt_sent get) rfl hanswered
  | issue | enqueue | refuse | abandonSending | abandonWaiting | ret | noVacancy | allHalted
  | joined | shutdown | serverExit => exact hsame rfl rfl

theorem Told.congr (h : s.Told) (hpods : ∀ p ∈ s'.pods, p.Sound)
    (hworker : ∀ idx worker, s'.workerAt idx worker = s.workerAt idx worker)
    (hr : ∀ r body, (r, .http body) ∈ s'.replies → (r, .http body) ∈ s.replies) : s'.Told where
  pods := hpods
  told := by
    intro r body hm hne
    obtain ⟨idx, worker, w, hw, hf⟩ := h.told r body (hr r body hm) hne
    exact ⟨idx, worker, w, (hworker _ _).trans hw, hf⟩

theorem Told.pod (h : s.Told) {b : PodAct} (get : s.pods[idx]? = some p)
    (hs : PodTask.Step p b p' o) (hb : ∀ worker, b ≠ .worker worker .cancel) :
    ((s.setPod idx p').emit idx o).Told := by
  constructor
  · rw [emit_pods]
    exact fun q hq => (List.mem_or_eq_of_mem_set hq).elim (h.pods q) fun heq =>
      heq ▸ (h.pods p (List.mem_of_getElem? get)).step hs hb
  · intro r body hm hne
    obtain hm | hm := List.mem_append.mp (http_of_deliver hm)
    · obtain ⟨i, worker, w, hw, hf⟩ := h.told r body hm hne
      obtain ⟨rfl, hw⟩ | ⟨-, hw⟩ := workerAt_set get hw
      · obtain ⟨w', hw', hmoved⟩ := PodTask.moved_of_step hs hw
        exact ⟨i, worker, w', workerAt_emit.trans (workerAt_set_self get hw'), hmoved.fulfilledWith hf⟩
      · exact ⟨i, worker, w, workerAt_emit.trans (hw p'), hf⟩
    · obtain ⟨worker, w', hw', hf⟩ := ((h.pods p (List.mem_of_getElem? get)).fulfilledWith hs
        (http_mem_answers.mp hm)).resolve_left hne
      exact ⟨idx, worker, w', workerAt_emit.trans (workerAt_set_self get hw'), hf⟩

def cancels : RuntimeAct → Bool
  | .pod _ (.worker _ .cancel) => true
  | _ => false

theorem Told.step (h : s.Told) (ha : cancels a = false) (hs : Step s a s') : s'.Told := by
  have hhttp : (∀ idx b, a ≠ .pod idx b) → ∀ r body, (r, Answer.http body) ∈ s'.replies →
      (r, Answer.http body) ∈ s.replies := fun hne _ _ => http_of_step hs hne
  have hsame : s'.pods = s.pods → (∀ idx b, a ≠ .pod idx b) → s'.Told := fun hp hne =>
    h.congr (hp ▸ h.pods) (fun _ _ => by simp only [workerAt, hp]) (hhttp hne)
  cases hs with
  | pod get closed hstep => exact h.pod get hstep fun worker hb => by simp [hb, cancels] at ha
  | recv phase head hh => exact hsame (by cases hh <;> rfl) (by simp)
  | failed => exact hsame failed_pods (by simp)
  | @sent _ _ _ p sends get =>
    refine h.congr (fun q hq => ?_) (fun _ _ => workerAt_sent get) (hhttp (by simp))
    obtain hq | rfl := List.mem_or_eq_of_mem_set hq
    · exact h.pods q hq
    · exact h.pods p (List.mem_of_getElem? get)
  | issue | enqueue | refuse | abandonSending | abandonWaiting | ret | noVacancy | allHalted
  | joined | shutdown | serverExit => exact hsame rfl (by simp)

end Told

/-- The reply of every HTTP event is in exactly one place; the strings that clients get are
those of the promises of their events; and a worker whose state was dropped has resolved
every reply that it took. -/
theorem replies_conserved (h : (machine c).Run as s)
    (hc : (machine c).Guarded (fun _ a => cancels a = false) as) :
    (∀ r pod wrk, s.opOf r = some (.sendHttpToWorker pod wrk) →
      s.sending r + s.queued.count r + s.handling.count r + s.working r + s.answered r = 1) ∧
    (∀ r body, (r, .http body) ∈ s.replies → body ≠ "" →
      ∃ idx worker w, s.workerAt idx worker = some w ∧ w.FulfilledWith r body) ∧
    ∀ idx worker w, s.workerAt idx worker = some w → w.phase = .closed →
      ∀ r, w.held r = 0 ∧ ((r, idx, worker) ∈ s.delivered → s.answered r = 1) := by
  obtain ⟨hl, hp, ht, hcons, hkept, htold⟩ :
      s.Labelled ∧ s.Placed ∧ s.Traced ∧ s.Conserved ∧ s.Retains ∧ s.Told := by
    refine h.invariant_of_guarded
      (P := fun s => s.Labelled ∧ s.Placed ∧ s.Traced ∧ s.Conserved ∧ s.Retains ∧ s.Told)
      ⟨labelled_start c, placed_start c, traced_start c, conserved_start c, retains_start c,
        told_start c⟩ ?_ hc
    intro s a s' ha ⟨hl, hp, ht, hcons, hkept, htold⟩ hs
    have hs := machine_sound hs
    exact ⟨hl.step hs, hp.step hl hs, ht.step hl hs, hcons.step hl hs, hkept.step hs, htold.step ha hs⟩
  refine ⟨hcons.http, htold.told, fun idx worker w hw hclosed r => ?_⟩
  obtain ⟨p, hget, hworker⟩ := workerAt_eq_some.mp hw
  obtain ⟨-, -, hv⟩ := htold.pods p (List.mem_of_getElem? hget) w (List.mem_of_getElem? hworker)
  refine ⟨hv.held_eq_zero hclosed, fun hd => ?_⟩
  obtain ⟨w', hw', hpos⟩ := hkept r idx worker hd
  obtain rfl : w = w' := Option.some.inj (hw.symm.trans hw')
  have htotal := hcons.http r idx worker (ht.delivered _ hd).1
  rw [hv.held_eq_zero hclosed] at hpos
  simp only [total] at htotal
  omega

def oneReply : List RuntimeAct :=
  oneRequest ++ ([.init {}, .recv, .resume, .newPromise, .ret (.promise 0 .ok), .fulfil 0 ⟨"x"⟩,
    .job] : List WorkerAct).map fun a => .pod 0 (.worker 0 a)

theorem replies_conserved_oneReply :
    ∃ s, (machine oneWorker).Run oneReply s ∧ (1, .http "x") ∈ s.replies ∧ s.answered 1 = 1 ∧
      ∃ idx worker w, s.workerAt idx worker = some w ∧ w.FulfilledWith 1 "x" := by
  obtain ⟨s, hs, hm, ha⟩ : ∃ s, (machine oneWorker).Run oneReply s ∧ (1, .http "x") ∈ s.replies ∧
      s.answered 1 = 1 := ⟨_, rfl, by decide, by decide⟩
  exact ⟨s, hs, hm, ha, (replies_conserved hs (by decide)).2.1 1 "x" hm (by decide)⟩

end Runtime

end Serverlessd
