import Serverlessd.Runtime.Serverless.Provenance

namespace Serverlessd

namespace Worker

variable {w w' : Worker} {a : WorkerAct} {o : WorkerOut}

def registeredEvents (w : Worker) : List Nat := w.links.map Link.event

def pending (w : Worker) : List Nat := w.handling ++ w.queued

def Takes (w w' : Worker) (new : List Nat) : Prop :=
  ∃ took, w.pending ++ new = took ++ w'.pending ∧
    w'.registeredEvents.Sublist (w.registeredEvents ++ took)

theorem takes_of_eq (hq : w'.queued = w.queued) (hl : w'.links = w.links)
    (hh : w'.handling = w.handling) : w.Takes w' [] :=
  ⟨[], by simp [pending, hq, hh], by simp [registeredEvents, hl]⟩

theorem takes_handled (hq : w'.queued = w.queued) (hl : w'.links = w.links) (hh : w'.handling = []) :
    w.Takes w' [] :=
  ⟨w.handling, by simp [pending, hq, hh], by simp [registeredEvents, hl]⟩

theorem takes_dropped (hq : w'.queued = []) (hl : w'.links = w.links) (hh : w'.handling = []) :
    w.Takes w' [] :=
  ⟨w.pending, by simp [pending, hq, hh], by simp [registeredEvents, hl]⟩

theorem takes_gone (result : Option WorkerError) : w.Takes (w.gone result) [] :=
  takes_dropped rfl rfl rfl

theorem Takes.of_discardJobs {new : List Nat} (h : w.discardJobs.Takes w' new) : w.Takes w' new := by
  have hevents : w.discardJobs.registeredEvents = w.registeredEvents := by
    refine List.ext_getElem (by simp [registeredEvents, discardJobs]) fun i hi _ => ?_
    simp only [registeredEvents, discardJobs, List.getElem_map, List.getElem_mapIdx]
    split <;> rfl
  obtain ⟨took, hp, he⟩ := h
  exact ⟨took, hp, hevents ▸ he⟩

theorem takes_resumed (hr : Resumed w w' o) : w.Takes w' [] := by
  cases hr with
  | halt => exact takes_dropped rfl rfl rfl
  | call phase => exact takes_of_eq rfl rfl (by simp [handling, phase, WorkerTrigger.replies])
  | skip | drained => exact takes_handled rfl rfl rfl
  | @polled future closing phase => exact takes_handled rfl rfl (by cases closing <;> rfl)

theorem takes_returned {reply : Nat} {result : CallResult} (phase : w.phase = .calling reply)
    (hr : Returned w reply result w' o) : w.Takes w' [] := by
  have hhandling : w.handling = [reply] := by simp [handling, phase]
  have hregistered : ∀ promise linked,
      (w.registered reply promise linked).registeredEvents = w.registeredEvents ++ [reply] := by
    simp [registeredEvents, registered]
  cases hr with
  | value => exact takes_handled rfl rfl rfl
  | chained | notRegistered =>
    refine ⟨[reply], by rw [pending, hhandling, List.append_nil]; rfl, ?_⟩
    exact hregistered _ _ ▸ List.Sublist.refl _
  | @noFunction promise =>
    refine ⟨w.pending, rfl, ?_⟩
    rw [pending, hhandling, ← List.append_assoc]
    exact hregistered promise false ▸ List.sublist_append_left _ _

theorem takes_of_step (hs : Step w a w' o) : w.Takes w' (pushed a) := by
  cases hs with
  | push =>
    exact ⟨[], by simp [pending, handling, queued, pushed], List.sublist_append_left _ _⟩
  | recv phase head =>
    refine ⟨[], by simp [pending, handling, queued, head, phase, pushed], ?_⟩
    exact List.sublist_append_left _ _
  | resume drained hr => exact takes_resumed hr
  | terminate flag hr => exact (takes_resumed hr).of_discardJobs
  | retThrew => exact takes_gone _
  | terminateCall => exact takes_gone (w := { w with terminating := false }) _
  | ret phase drained hr => exact takes_returned phase hr
  | retTerminated phase flag hr =>
    exact (takes_returned (w := { w with terminating := false }.discardJobs) phase hr).of_discardJobs
  | unmonitored | cancel | cancelClosing => exact takes_dropped rfl rfl rfl
  | initLoop | close => exact takes_handled rfl rfl rfl
  | @initError _ err phase => exact takes_gone (some err)
  | @pollReady future polled closing phase => exact takes_handled rfl rfl rfl
  | monitorSend => exact takes_of_eq (by simp [queued, WorkerTrigger.replies]) rfl rfl
  | newPromise | fulfil | reject | callFetch | job | pollPending | monitorLeave | monitorSendFailed
  | monitorDone => exact takes_of_eq rfl rfl rfl

end Worker

namespace PodTask

variable {p p' : PodTask} {a : PodAct} {o : PodOut} {worker : Nat} {trigger : WorkerTrigger}

def pending (p : PodTask) : List Nat := p.handling ++ p.queued

theorem delivered_of_triggered (ht : Triggered p worker trigger p' o) :
    (o.delivered.map Prod.fst).Sublist trigger.replies ∧ p'.pending = p.pending := by
  cases ht with
  | sent => exact ⟨by simp [Function.comp_def], rfl⟩
  | dropped => exact ⟨List.nil_sublist _, rfl⟩

theorem pending_of_step (hs : Step p a p' o) :
    (o.delivered.map Prod.fst ++ p'.pending).Sublist p.pending := by
  have hdrop : p'.handling = [] → p'.queue <:+ p.queue → p'.pending.Sublist p.pending := by
    rintro hh ⟨pre, hq⟩
    rw [pending, hh, List.nil_append, pending, queued, queued, ← hq, List.flatMap_append]
    exact (List.sublist_append_right _ _).trans (List.sublist_append_right _ _)
  have hsame : o.delivered.map Prod.fst ++ p'.pending = p.pending →
      (o.delivered.map Prod.fst ++ p'.pending).Sublist p.pending := fun h => h ▸ List.Sublist.refl _
  cases hs with
  | checkVacancies phase head | createWorker phase head | unknown phase head | halt phase head =>
    refine hdrop (by simp [handling, phase]) ?_
    exact head ▸ List.suffix_cons _ _
  | forward phase head =>
    refine hsame ?_
    simp [pending, handling, queued, phase, head, PodTrigger.replies]
  | @forwarded _ _ worker trigger phase ht =>
    obtain ⟨hd, hp⟩ := delivered_of_triggered ht
    rw [hp]
    have hpending : p.pending = trigger.replies ++ p.queued := by rw [pending, handling, phase]
    rw [hpending]
    exact hd.append (List.Sublist.refl _)
  | haltWorker phase ht =>
    obtain ⟨hd, hp⟩ := delivered_of_triggered ht
    refine hsame ?_
    rw [List.sublist_nil.mp hd, hp]
    simp [pending, handling, phase, queued]
  | haltEmpty phase | token phase =>
    refine hsame ?_
    simp [pending, handling, phase, queued]
  | halted => exact List.nil_sublist _
  | hangup phase => exact hdrop rfl List.suffix_rfl
  | worker => exact List.Sublist.refl _

end PodTask

def ServerlessPhase.carried (idx : Nat) : ServerlessPhase → List Nat
  | .forwarding id trigger => if id = idx then trigger.replies else []
  | _ => []

namespace Runtime

variable {s s' : Runtime} {a : RuntimeAct} {idx worker : Nat} {p p' : PodTask} {o : PodOut} {w : Worker}
variable {c : Config} {as : List RuntimeAct}

def deliveredTo (s : Runtime) (idx : Nat) : List Nat :=
  (s.delivered.filter fun d => d.2.1 = idx).map Prod.fst

def receivedBy (s : Runtime) (idx worker : Nat) : List Nat :=
  (s.delivered.filter fun d => d.2 = (idx, worker)).map Prod.fst

theorem receivedBy_sublist (s : Runtime) (idx worker : Nat) :
    (s.receivedBy idx worker).Sublist (s.deliveredTo idx) := by
  refine List.Sublist.map _ (List.monotone_filter_right _ fun d hd => ?_)
  simp only [decide_eq_true_eq] at hd ⊢
  rw [hd]

/-- The worker is done with the first of the events that reached it, some of them registered for
their promises in this order; then come the event at hand, if there is one, and those in its queue. -/
def Receives (s : Runtime) (idx worker : Nat) (w : Worker) : Prop :=
  ∃ took, s.receivedBy idx worker = took ++ w.pending ∧ w.registeredEvents.Sublist took

structure InOrder (s : Runtime) : Prop where
  pods : ∀ (idx : Nat) (p : PodTask), s.pods[idx]? = some p →
    (s.deliveredTo idx ++ (p.pending ++ s.phase.carried idx)).Sublist (s.log.map Processed.call)
  workers : ∀ (idx : Nat) (p : PodTask) (worker : Nat) (w : Worker), s.pods[idx]? = some p →
    p.tasks[worker]? = some w → s.Receives idx worker w

theorem inOrder_start (c : Config) : (start c).InOrder := by
  have hstart : ∀ {idx : Nat} {p : PodTask}, (start c).pods[idx]? = some p →
      PodTask.start c.nWorkers = p := by
    intro idx p hp
    exact (show _ ∧ PodTask.start c.nWorkers = p by
      simpa [start, List.getElem?_replicate] using hp).2
  constructor
  · intro idx p hp
    rw [← hstart hp]
    exact List.nil_sublist _
  · intro idx p worker w hp hw
    rw [← hstart hp] at hw
    cases hw

theorem carried_of_sends {trigger : PodTrigger} {next : ServerlessPhase}
    (h : s.phase.sends = some (idx, trigger, next)) :
    s.phase.carried idx = trigger.replies ∧ ∀ i, next.carried i = [] := by
  cases hp : s.phase <;> rw [hp] at h <;> cases h
  case finding | placing | halting => exact ⟨rfl, fun _ => rfl⟩
  case forwarding => exact ⟨if_pos rfl, fun _ => rfl⟩

theorem carried_deliver {reply : Option PodReply} :
    (s.deliver reply).phase.carried idx = s.phase.carried idx := by
  unfold deliver
  split <;> simp_all [ServerlessPhase.carried]

theorem InOrder.move (h : s.InOrder) (hpods : s'.pods = s.pods) (hd : s'.delivered = s.delivered)
    (hl : s.log.map Processed.call <+: s'.log.map Processed.call)
    (hc : ∀ idx, s'.phase.carried idx = s.phase.carried idx ∨ s'.phase.carried idx = []) :
    s'.InOrder := by
  constructor
  · intro idx p get
    have hold := (h.pods idx p (hpods ▸ get)).trans hl.sublist
    have hsame : s'.deliveredTo idx = s.deliveredTo idx := by rw [deliveredTo, hd, deliveredTo]
    rw [hsame]
    obtain hc | hc := hc idx
    · rwa [hc]
    · rw [hc, List.append_nil]
      exact (List.Sublist.append_left (List.sublist_append_left _ _) _).trans hold
  · intro idx p worker w get hw
    have hsame : s'.receivedBy idx worker = s.receivedBy idx worker := by
      rw [receivedBy, hd, receivedBy]
    rw [Receives, hsame]
    exact h.workers idx p worker w (hpods ▸ get) hw

theorem InOrder.sent (h : s.InOrder) {trigger : PodTrigger} {next : ServerlessPhase}
    (hsends : s.phase.sends = some (idx, trigger, next)) (get : s.pods[idx]? = some p) :
    (({ s with phase := next } : Runtime).setPod idx
      { p with queue := p.queue ++ [trigger] }).InOrder := by
  obtain ⟨hc, hnext⟩ := carried_of_sends hsends
  constructor
  · intro i q hq
    show (s.deliveredTo i ++ (q.pending ++ next.carried i)).Sublist (s.log.map Processed.call)
    rw [hnext, List.append_nil]
    obtain ⟨rfl, rfl⟩ | ⟨-, hq⟩ := List.getElem?_set_cases hq
    · have hold := h.pods i p get
      rw [hc] at hold
      simpa [PodTask.pending, PodTask.handling, PodTask.queued] using hold
    · have hold := h.pods i q hq
      exact (List.Sublist.append_left (List.sublist_append_left _ _) _).trans hold
  · intro i q worker w hq hw
    obtain ⟨rfl, rfl⟩ | ⟨-, hq⟩ := List.getElem?_set_cases hq
    · exact h.workers i p worker w get hw
    · exact h.workers i q worker w hq hw

theorem receivedBy_emit {i : Nat} : ((s.setPod idx p').emit idx o).receivedBy i worker =
    s.receivedBy i worker ++ if idx = i then o.brings worker else [] := by
  rw [receivedBy, emit_delivered, List.filter_append, List.map_append]
  split
  next h => simp [receivedBy, PodOut.brings, setPod, List.filter_map, Function.comp_def, h]
  next h => simp [receivedBy, setPod, List.filter_map, Function.comp_def, h]

theorem Receives.moved {b : PodAct} {w' : Worker} (h : s.Receives idx worker w)
    (hm : PodTask.Moved b o worker w w') :
    ∃ took, s.receivedBy idx worker ++ o.brings worker = took ++ w'.pending ∧
      w'.registeredEvents.Sublist took := by
  obtain ⟨took, hr, ht⟩ := h
  cases hm with
  | same rests => exact ⟨took, by rw [rests, List.append_nil, hr], ht⟩
  | @stepped b _ wo hstep replies cancel pushed =>
    obtain ⟨new, hq, hn⟩ := Worker.takes_of_step hstep
    refine ⟨took ++ new, ?_, hn.trans (ht.append_right new)⟩
    rw [pushed, hr, List.append_assoc, hq, List.append_assoc]

theorem InOrder.pod (h : s.InOrder) {b : PodAct} (get : s.pods[idx]? = some p)
    (hs : PodTask.Step p b p' o) : ((s.setPod idx p').emit idx o).InOrder := by
  constructor
  · intro i q hq
    rw [emit_pods] at hq
    rw [emit_log, emit_eq, carried_deliver]
    obtain ⟨rfl, rfl⟩ | ⟨hi, hq⟩ := List.getElem?_set_cases hq
    · have hd : (((s.setPod i q).given i o).deliver o.reply).deliveredTo i =
          s.deliveredTo i ++ o.delivered.map Prod.fst := by
        simp [deliveredTo, given, setPod, List.filter_map, Function.comp_def]
      rw [hd, List.append_assoc, ← List.append_assoc (o.delivered.map Prod.fst)]
      have hpending := (PodTask.pending_of_step hs).append_right (s.phase.carried i)
      exact (hpending.append_left _).trans (h.pods i p get)
    · have hd : (((s.setPod idx p').given idx o).deliver o.reply).deliveredTo i = s.deliveredTo i := by
        simp [deliveredTo, given, setPod, List.filter_map, Function.comp_def, Ne.symm hi]
      rw [hd]
      exact h.pods i q hq
  · intro i q worker w hq hw
    rw [emit_pods] at hq
    rw [Receives, receivedBy_emit]
    obtain ⟨rfl, rfl⟩ | ⟨hi, hq⟩ := List.getElem?_set_cases hq
    · rw [if_pos rfl]
      obtain ⟨v, hv, hm⟩ | ⟨-, hnew⟩ := PodTask.started_of_step hs hw
      · exact (h.workers i p worker v get hv).moved hm
      · rw [hnew]
        exact ⟨_, (List.append_nil _).symm, List.nil_sublist _⟩
    · rw [if_neg (Ne.symm hi), List.append_nil]
      exact h.workers i q worker w hq hw

theorem InOrder.recv (h : s.InOrder) (hl : s.Labelled) {io : Io} {call : Nat}
    {trigger : ServerlessTrigger} {queue : List (Nat × ServerlessTrigger)}
    (phase : s.phase = .selecting) (head : s.queue = (call, trigger) :: queue)
    (hh : Handled { s with queue } io call trigger s') : s'.InOrder := by
  obtain ⟨op, -, htrigger⟩ := hl.queue _ (head ▸ List.mem_cons_self)
  have hcarried : ∀ idx, s.phase.carried idx = [] := fun idx => by rw [phase]; rfl
  have hlog : ∀ {e : Processed}, s.log.map Processed.call <+: (s.log ++ [e]).map Processed.call :=
    fun {e} => (List.prefix_append s.log [e]).map _
  cases hh with
  | unreadable | unknown | upload | remove =>
    exact h.move rfl rfl hlog fun idx => .inl rfl
  | readable => exact h.move rfl rfl hlog fun idx => .inr rfl
  | @forward id t =>
    have hreplies : t.replies = [call] := by
      cases op with
      | sendHttpToWorker pod wrk =>
        obtain ⟨-, rfl⟩ : id = pod ∧ t = .toWorker wrk (.http call) := by
          simpa [Op.trigger] using htrigger
        rfl
      | createWorker | uploadWorker | removeWorker => cases htrigger
    constructor
    · intro idx p get
      show (s.deliveredTo idx ++ (p.pending ++ if id = idx then t.replies else [])).Sublist
        ((s.log ++ [_]).map Processed.call)
      have hold := h.pods idx p get
      rw [hcarried, List.append_nil] at hold
      rw [← List.append_assoc, List.map_append, hreplies]
      refine hold.append ?_
      split
      · exact List.Sublist.refl _
      · exact List.nil_sublist _
    · exact h.workers

theorem InOrder.step (h : s.InOrder) (hl : s.Labelled) (hs : Step s a s') : s'.InOrder := by
  cases hs with
  | issue | enqueue | refuse | abandonSending | abandonWaiting | ret =>
    exact h.move rfl rfl List.prefix_rfl fun _ => .inl rfl
  | recv phase head hh => exact h.recv hl phase head hh
  | sent sends get => exact h.sent sends get
  | failed =>
    refine h.move failed_pods failed_delivered (by rw [failed_log]) fun i => ?_
    unfold failed
    split <;> simp_all [ServerlessPhase.carried]
  | noVacancy | allHalted | joined | shutdown | serverExit =>
    exact h.move rfl rfl List.prefix_rfl fun _ => .inr rfl
  | pod get closed hstep => exact h.pod get hstep

def sends (s : Runtime) : List Nat :=
  s.history.filterMap fun
    | .sent call => some call
    | _ => none

structure Sends (s : Runtime) : Prop where
  log : s.log.map Processed.call <+: s.sends
  order : s.phase ≠ .closed → s.order = s.sends

theorem sends_record {event : Fifo.Event Answer} (he : ∀ call, event ≠ .sent call) :
    (s.record event).sends = s.sends := by
  cases event with
  | sent call => exact absurd rfl (he call)
  | issued | returned | abandoned => simp [sends]

theorem Sends.congr (h : s.Sends) (hlog : s'.log = s.log) (hq : s'.phase ≠ .closed → s'.queue = s.queue)
    (hp : s'.phase ≠ .closed → s.phase ≠ .closed) (hs : s'.sends = s.sends) : s'.Sends where
  log := by rw [hlog, hs]; exact h.log
  order := fun hne => by rw [Runtime.order, hlog, hq hne, hs]; exact h.order (hp hne)

theorem Sends.step (h : s.Sends) (hs : Step s a s') : s'.Sends := by
  have hp : s'.phase ≠ .closed → s.phase ≠ .closed := fun hne hc => hne (closed_of_step hs hc)
  cases hs with
  | issue | abandonWaiting | ret =>
    exact h.congr rfl (fun _ => rfl) hp (sends_record (by simp))
  | refuse | abandonSending =>
    exact h.congr rfl (fun _ => rfl) hp (sends_record (by simp))
  | @enqueue call client op sending rx room =>
    have hopen : s.phase ≠ .closed := by simpa [rxOpen] using rx
    have hsends : (({ s with queue := s.queue ++ [(call, op.trigger call)] }.setStatus call
        .waiting).record (.sent call)).sends = s.sends ++ [call] := by simp [sends]
    refine ⟨hsends ▸ h.log.trans (List.prefix_append _ _), fun _ => ?_⟩
    rw [hsends, ← h.order hopen]
    simp [Runtime.order]
  | @recv _ _ call trigger queue phase head hh =>
    have hold := h.order (by rw [phase]; simp)
    obtain ⟨e, hlog, hcall, hq, hsends⟩ : ∃ e, s'.log = s.log ++ [e] ∧ e.call = call ∧
        s'.queue = queue ∧ s'.sends = s.sends := by
      cases hh <;> exact ⟨_, rfl, rfl, rfl, rfl⟩
    have horder : s'.order = s'.sends := by
      rw [hsends, ← hold, Runtime.order, Runtime.order, hlog, hq, head]
      simp [hcall]
    exact ⟨horder ▸ List.prefix_append _ _, fun _ => horder⟩
  | failed => exact h.congr failed_log (fun _ => failed_queue) hp (by simp [sends])
  | pod => exact h.congr emit_log (fun _ => emit_queue) hp (by simp [sends, setPod])
  | joined | serverExit => exact h.congr rfl (fun hne => absurd rfl hne) hp rfl
  | sent | noVacancy | allHalted | shutdown => exact h.congr rfl (fun _ => rfl) hp rfl

theorem sends_run (h : (machine c).Run as s) : s.Sends :=
  run_invariant ⟨List.prefix_rfl, fun _ => rfl⟩ Sends.step h

theorem inOrder_run (h : (machine c).Run as s) : s.InOrder := by
  have hboth : s.Labelled ∧ s.InOrder :=
    run_invariant (P := fun s => s.Labelled ∧ s.InOrder) ⟨labelled_start c, inOrder_start c⟩
      (fun hi hs => ⟨hi.1.step hs, hi.2.step hi.1 hs⟩) h
  exact hboth.2

/-- In every run the events that reach a worker do so in the order in which the clients sent them,
and none of them twice; and it takes them in this order. -/
theorem events_in_order (h : (machine c).Run as s) (get : s.pods[idx]? = some p)
    (hw : p.tasks[worker]? = some w) :
    (s.receivedBy idx worker).Sublist s.sends ∧ (s.receivedBy idx worker).Nodup ∧
      s.Receives idx worker w := by
  have hin := inOrder_run h
  have hlog : (s.receivedBy idx worker).Sublist (s.log.map Processed.call) :=
    calc
      List.Sublist (s.receivedBy idx worker) (s.deliveredTo idx) := s.receivedBy_sublist idx worker
      List.Sublist _ (s.log.map Processed.call) :=
        (List.sublist_append_left _ _).trans (hin.pods idx p get)
  have hnodup : s.order.Nodup := (sequenced_run h).ordered.nodup
  exact ⟨hlog.trans (sends_run h).log.sublist,
    hlog.nodup (hnodup.sublist (List.sublist_append_left _ _)), hin.workers idx p worker w get hw⟩

def threeEvents : List RuntimeAct :=
  oneRequest ++ [.issue 1 (.sendHttpToWorker 0 0), .issue 2 (.sendHttpToWorker 0 0), .enqueue 3,
    .enqueue 2, .recv {}, .send, .pod 0 .recv, .pod 0 .send, .recv {}, .send, .pod 0 .recv,
    .pod 0 .send] ++
  ([.init {}, .recv, .resume, .newPromise, .ret (.promise 0 .ok), .resume, .recv, .resume,
    .ret .value] : List WorkerAct).map fun a => .pod 0 (.worker 0 a)

theorem events_in_order_threeEvents :
    ∃ s p w, (machine oneWorker).Run threeEvents s ∧ s.pods[0]? = some p ∧ p.tasks[0]? = some w ∧
      s.receivedBy 0 0 = [1, 3, 2] ∧ w.registeredEvents = [1] ∧ w.pending = [2] ∧
      ((s.receivedBy 0 0).Sublist s.sends ∧ (s.receivedBy 0 0).Nodup ∧ s.Receives 0 0 w) := by
  obtain ⟨s, p, w, hs, get, hw, hreceived, hregistered, hpending⟩ : ∃ s p w,
      (machine oneWorker).Run threeEvents s ∧ s.pods[0]? = some p ∧ p.tasks[0]? = some w ∧
        s.receivedBy 0 0 = [1, 3, 2] ∧ w.registeredEvents = [1] ∧ w.pending = [2] :=
    ⟨_, _, _, rfl, rfl, rfl, by decide, rfl, rfl⟩
  exact ⟨s, p, w, hs, get, hw, hreceived, hregistered, hpending, events_in_order hs get hw⟩

end Runtime

end Serverlessd
