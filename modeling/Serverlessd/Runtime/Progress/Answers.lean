import Serverlessd.Runtime.Progress.Serverless
import Serverlessd.Runtime.Serverless.Admission

namespace Serverlessd

def Op.asks : Op → Bool
  | .createWorker _ | .uploadWorker _ _ => true
  | .removeWorker _ | .sendHttpToWorker _ _ => false

theorem Op.replies_of_asks {op : Op} (h : op.asks = true) (call : Nat) :
    (op.trigger call).replies = [call] := by
  cases op with
  | createWorker | uploadWorker => rfl
  | removeWorker | sendHttpToWorker => cases h

namespace PodTask

variable {p p' : PodTask} {a : PodAct} {o : PodOut} {worker r : Nat} {trigger : WorkerTrigger}

def Carries (p : PodTask) (r : Nat) : Prop := r ∈ p.queued ∨ r ∈ p.handling

def Parts (o : PodOut) (r : Nat) : Prop := 0 < resolved o.replies r ∨ ∃ worker, (r, worker) ∈ o.delivered

theorem resolved_of_dropped {l : List Nat} (h : r ∈ l) : 0 < resolved (Worker.dropped l) r := by
  rw [resolved_dropped]
  exact List.count_pos_iff.mpr h

theorem parts_of_triggered (ht : Triggered p worker trigger p' o) (h : r ∈ trigger.replies) :
    Parts o r := by
  cases ht with
  | sent => exact .inr ⟨worker, List.mem_map.mpr ⟨r, h, rfl⟩⟩
  | dropped => exact .inl (resolved_of_dropped h)

theorem handling_of_step (hs : Step p a p' o) (h : r ∈ p.handling) :
    p'.phase = p.phase ∨ Parts o r := by
  cases hs with
  | forwarded phase ht =>
    simp only [handling, phase] at h
    exact .inr (parts_of_triggered ht h)
  | worker => exact .inl rfl
  | checkVacancies phase | createWorker phase | forward phase | unknown phase | halt phase
  | haltWorker phase | haltEmpty phase | halted phase | token phase | hangup phase =>
    simp [handling, phase] at h

theorem queued_of_step (hs : Step p a p' o) (h : r ∈ p.queued) :
    p'.Carries r ∨ Parts o r := by
  have hhead : ∀ {event : PodTrigger} {queue : List PodTrigger}, p.queue = event :: queue →
      r ∈ event.replies ∨ r ∈ queue.flatMap PodTrigger.replies := fun head => by
    simpa [queued_of_head head] using h
  cases hs with
  | checkVacancies phase head | createWorker phase head | halt phase head =>
    exact .inl (.inl ((hhead head).resolve_left (by simp [PodTrigger.replies])))
  | forward phase head => exact .inl ((hhead head).symm.imp id id)
  | unknown phase head =>
    obtain h | h := hhead head
    · exact .inr (.inl (resolved_of_dropped h))
    · exact .inl (.inl h)
  | halted => exact .inr (.inl (resolved_of_dropped h))
  | forwarded phase ht | haltWorker phase ht => cases ht <;> exact .inl (.inl h)
  | hangup phase queue => simp [queued, queue] at h
  | haltEmpty | token | worker => exact .inl (.inl h)

theorem handling_of_recv {t : PodTrigger} {q : List PodTrigger} (hs : Step p .recv p' o)
    (hq : t :: q <+: p.queue) (h : r ∈ t.replies) : r ∈ p'.handling ∨ Parts o r := by
  have hhead : ∀ {event : PodTrigger} {queue : List PodTrigger}, p.queue = event :: queue →
      r ∈ event.replies := fun head => by
    rw [head] at hq
    exact (List.cons_prefix_cons.mp hq).1 ▸ h
  cases hs with
  | checkVacancies phase head | createWorker phase head | halt phase head => cases hhead head
  | forward phase head => exact .inl (hhead head)
  | unknown phase head => exact .inr (.inl (resolved_of_dropped (hhead head)))

theorem Carries.step (h : p.Carries r) (hs : Step p a p' o) : p'.Carries r ∨ Parts o r := by
  obtain h | h := h
  · exact queued_of_step hs h
  · refine (handling_of_step hs h).imp_left fun hphase => .inr ?_
    simpa only [handling, hphase] using h

end PodTask

namespace Runtime

variable {c : Config} {s s' : Runtime} {a : RuntimeAct} {idx call r : Nat} {p p' : PodTask} {op : Op}

section Attended

def Waits (s : Runtime) (call : Nat) : Prop :=
  call ∈ s.queue.map Prod.fst ∨ s.phase.searching = some call ∨ 0 < s.answered call

theorem waits_answer {answer : Answer} : (s.answer call answer).Waits call := by
  refine .inr (.inr ?_)
  rw [answered_answer]
  simp

theorem Waits.failed (h : s.phase.searching = some call) : s.failed.Waits call := by
  unfold Runtime.failed
  cases hp : s.phase with
  | finding task idx | awaitingVacancy task idx => exact .inr (.inl (by rwa [hp] at h))
  | placing task idx =>
    obtain rfl : task.call = call := by simpa [hp, ServerlessPhase.searching] using h
    exact waits_answer
  | awaitingWorker n idx =>
    obtain rfl : n = call := by simpa [hp, ServerlessPhase.searching] using h
    exact waits_answer
  | _ => simp [hp, ServerlessPhase.searching] at h

theorem Waits.deliver (h : s.phase.searching = some call) (reply : Option PodReply) :
    (s.deliver reply).Waits call := by
  unfold Runtime.deliver
  split
  · rename_i hp
    exact .inr (.inl (by rwa [hp] at h))
  · rename_i hp
    exact .inr (.inl (by rwa [hp] at h))
  · rename_i n idx id hp
    obtain rfl : n = call := by simpa [hp, ServerlessPhase.searching] using h
    exact waits_answer
  · rename_i hp
    simp [hp, ServerlessPhase.searching] at h
  · exact .inr (.inl h)

theorem waits_of_handled {io : Io} {trigger : ServerlessTrigger} (hh : Handled s io call trigger s')
    (hasks : op.asks = true) (ht : trigger = op.trigger call) : s'.Waits call := by
  subst ht
  cases op with
  | createWorker name =>
    cases hh with
    | unreadable => exact waits_answer
    | readable => exact .inr (.inl rfl)
  | uploadWorker name code =>
    cases hh with
    | upload => exact waits_answer
  | removeWorker | sendHttpToWorker => cases hasks

theorem waits_of_close (hl : s.Labelled) (hop : s.opOf call = some op) (hasks : op.asks = true)
    (h : call ∈ s.queue.map Prod.fst) : s.close.Waits call := by
  obtain ⟨m, hm, rfl⟩ := List.mem_map.mp h
  obtain ⟨op', hop', ht⟩ := hl.queue m hm
  obtain rfl := Option.some.inj (hop'.symm.trans hop)
  refine .inr (.inr ?_)
  rw [close, answered_drop]
  refine Nat.add_pos_right _ (List.count_pos_iff.mpr (List.mem_flatMap.mpr ⟨m, hm, ?_⟩))
  rw [ht, Op.replies_of_asks hasks]
  exact List.mem_singleton_self m.1

theorem Waits.step (h : s.Waits call) (hl : s.Labelled) (hop : s.opOf call = some op)
    (hasks : op.asks = true) (hs : Step s a s') : s'.Waits call := by
  obtain hq | hp | ha := h
  · cases hs with
    | issue | refuse | abandonSending | abandonWaiting | ret | sent | noVacancy | allHalted
    | shutdown => exact .inl hq
    | enqueue =>
      simp only [Waits, record_queue, setStatus_queue, List.map_append]
      exact .inl (List.mem_append_left _ hq)
    | failed => exact .inl (by simpa using hq)
    | pod => exact .inl (by simpa [setPod] using hq)
    | joined | serverExit => exact waits_of_close hl hop hasks hq
    | @recv _ io n trigger queue phase head hh =>
      obtain ⟨op', hop', ht⟩ := hl.queue _ (head ▸ List.mem_cons_self)
      rw [head] at hq
      obtain heq | hmem := List.mem_cons.mp hq
      · obtain rfl : call = n := heq
        obtain rfl := Option.some.inj (hop'.symm.trans hop)
        exact waits_of_handled hh hasks ht
      · exact .inl (by cases hh <;> exact hmem)
  · cases hs with
    | issue | enqueue | refuse | abandonSending | abandonWaiting | ret => exact .inr (.inl hp)
    | sent sends => exact .inr (.inl ((ServerlessPhase.searching_of_sends sends).trans hp))
    | failed => exact .failed hp
    | @noVacancy task idx phase =>
      rw [phase] at hp
      obtain rfl : task.call = call := Option.some.inj hp
      exact waits_answer
    | @pod idx b p p' o =>
      rw [emit_eq]
      exact .deliver (s := (s.setPod idx p').given idx o) hp _
    | recv phase | allHalted phase | joined phase | shutdown phase | serverExit phase =>
      simp [phase, ServerlessPhase.searching] at hp
  · exact .inr (.inr (Nat.lt_of_lt_of_le ha (answered_of_step hs)))

def Attended (s : Runtime) : Prop :=
  ∀ call op, s.opOf call = some op → op.asks = true → s.fifo.Left call → s.Waits call

theorem left_of_setStatus {status : Fifo.Status} (h : (s.setStatus r status).fifo.Left call) :
    call = r ∨ s.fifo.Left call := by
  by_cases hr : call = r
  · exact .inl hr
  · rw [fifo_setStatus] at h
    obtain ⟨c, hc, hne⟩ := h
    obtain ⟨old, hold, hsame⟩ := Fifo.getElem?_setStatus hc
    exact .inr ⟨_, hold, hsame hr ▸ hne⟩

theorem left_before (hs : Step s a s') (h : s'.fifo.Left call) :
    s.fifo.Left call ∨ s'.Waits call := by
  cases hs with
  | issue =>
    obtain ⟨d, hd, hne⟩ := h
    simp only [fifo, record_calls, List.map_append, List.map_cons, List.map_nil] at hd
    obtain hd | ⟨-, rfl⟩ := List.getElem?_concat_eq_some.mp hd
    · exact .inl ⟨d, hd, hne⟩
    · exact absurd rfl hne
  | enqueue =>
    obtain rfl | h := left_of_setStatus h
    · exact .inr (.inl (by simp))
    · exact .inl h
  | refuse | abandonSending =>
    obtain rfl | h := left_of_setStatus h
    · exact .inr (.inr (.inr (by simp [answered])))
    · exact .inl h
  | abandonWaiting waiting | ret waiting =>
    obtain rfl | h := left_of_setStatus h
    · exact .inl ⟨_, fifo_get waiting, by simp⟩
    · exact .inl h
  | recv phase head hh => exact .inl (by rwa [fifo_of_handled hh] at h)
  | failed => exact .inl (by simpa [fifo] using h)
  | pod => exact .inl (by simpa [fifo, setPod] using h)
  | sent | noVacancy | allHalted | joined | shutdown | serverExit => exact .inl h

theorem Attended.step (h : s.Attended) (hl : s.Labelled) (hs : Step s a s') : s'.Attended := by
  intro call op hop hasks hleft
  obtain hleft | hw := left_before hs hleft
  · obtain hop | ⟨rfl, -⟩ := opOf_of_step hs hop
    · exact (h call op hop hasks hleft).step hl hop hasks hs
    · obtain ⟨d, hd, -⟩ := hleft
      simp [fifo] at hd
  · exact hw

end Attended

structure Tracked (fs : FileSystem) (s : Runtime) : Prop where
  sequenced : s.Sequenced fs
  conserved : s.Conserved
  attended : s.Attended
  closed : s.phase = .closed → s.queue = []

theorem tracked_start (c : Config) : (start c).Tracked (start c).fs where
  sequenced := sequenced_run Machine.run_nil
  conserved := conserved_start c
  attended call op hop := by simp [opOf, start] at hop
  closed := by simp [start]

theorem closed_before_emit {o : PodOut} (h : ((s.setPod idx p').emit idx o).phase = .closed) :
    s.phase = .closed := by
  rw [emit_eq] at h
  unfold deliver at h
  split at h
  all_goals first | cases h | exact h

theorem closed_queue_of_step (h : s.phase = .closed → s.queue = []) (hs : Step s a s')
    (hp : s'.phase = .closed) : s'.queue = [] := by
  cases hs with
  | issue | refuse | abandonSending | abandonWaiting | ret => exact h hp
  | enqueue sending rx => exact absurd hp (by simpa [rxOpen] using rx)
  | recv phase head hh => cases hh <;> simp_all
  | sent sends =>
    cases hphase : s.phase <;> rw [hphase] at sends <;> cases sends <;> cases hp
  | failed =>
    unfold failed at hp ⊢
    split at hp <;> simp_all
  | noVacancy | allHalted | shutdown => cases hp
  | joined | serverExit => rfl
  | pod =>
    rw [emit_queue]
    exact h (closed_before_emit hp)

theorem Tracked.step {fs : FileSystem} (h : s.Tracked fs) (hs : Step s a s') : s'.Tracked fs where
  sequenced := h.sequenced.step hs
  conserved := h.conserved.step h.sequenced.labelled hs
  attended := h.attended.step h.sequenced.labelled hs
  closed := closed_queue_of_step h.closed hs

theorem tracked (b : (machine c).Behaviour) (n : Nat) : (b.state n).Tracked (start c).fs :=
  b.invariant (tracked_start c) (fun h hs => h.step (machine_sound hs)) n

section Queue

variable {b : (machine c).Behaviour} {n : Nat} {t : ServerlessTrigger}
variable {q : List (Nat × ServerlessTrigger)}

def Logged (s : Runtime) (call : Nat) : Prop := call ∈ s.log.map Processed.call

theorem Logged.step (h : s.Logged call) (hl : s.Labelled) (hs : Step s a s') : s'.Logged call :=
  List.map_subset _ (log_prefix_of_step hl hs).subset h

theorem logged_of_recv (hl : s.Labelled) {io : Io} (hs : Step s (.recv io) s')
    (hq : (call, t) :: q <+: s.queue) : s'.Logged call ∧ q <+: s'.queue := by
  cases hs with
  | @recv _ _ n trigger queue phase head hh =>
    rw [head] at hq
    obtain ⟨heq, htail⟩ := List.cons_prefix_cons.mp hq
    obtain ⟨rfl, rfl⟩ := Prod.mk.inj heq
    obtain ⟨op, -, ht⟩ := hl.queue _ (head ▸ List.mem_cons_self)
    have hlog := (log_of_handled ht hh).1
    refine ⟨by simp [Logged, hlog], ?_⟩
    cases hh <;> exact htail

theorem queue_of_step (hl : s.Labelled) (hs : Step s a s') (hq : (call, t) :: q <+: s.queue) :
    (call, t) :: q <+: s'.queue ∨ s'.phase = .closed ∨ s'.Logged call ∧ q <+: s'.queue := by
  cases hs with
  | issue | refuse | abandonSending | abandonWaiting | ret | sent | noVacancy | allHalted
  | shutdown => exact .inl hq
  | enqueue => exact .inl (hq.trans (List.prefix_append _ _))
  | failed => exact .inl (by simpa using hq)
  | pod => exact .inl (by simpa [setPod] using hq)
  | joined | serverExit => exact .inr (.inl rfl)
  | recv phase head hh => exact .inr (.inr (logged_of_recv hl (.recv phase head hh) hq))

theorem selecting_of_step (hs : Step s a s') (hp : s.phase = .selecting) (ha : ¬ a.ofTask) :
    s'.phase = .selecting ∧ s.queue <+: s'.queue ∨ s'.phase.serving = false := by
  cases hs with
  | issue | refuse | abandonSending | abandonWaiting | ret => exact .inl ⟨hp, List.prefix_rfl⟩
  | enqueue => exact .inl ⟨hp, List.prefix_append _ _⟩
  | recv | sent | failed | noVacancy | allHalted | joined => exact absurd trivial ha
  | shutdown | serverExit => exact .inr rfl
  | @pod idx b p p' o =>
    have hhears : ((s.setPod idx p').given idx o).phase.hears o.reply = false := by
      simp [given, hp, ServerlessPhase.hears]
    rw [emit_eq, deliver_of_not_hears hhears]
    exact .inl ⟨hp, List.prefix_rfl⟩

theorem recv_of_ofTask (hs : Step s a s') (hp : s.phase = .selecting) (ha : a.ofTask) :
    ∃ io, a = .recv io := by
  cases hs with
  | recv => exact ⟨_, rfl⟩
  | sent sends => simp [hp, ServerlessPhase.sends] at sends
  | failed needs => simp [hp, ServerlessPhase.sends, ServerlessPhase.awaits] at needs
  | noVacancy phase | allHalted phase | joined phase => cases hp.symm.trans phase
  | issue | enqueue | refuse | abandonSending | abandonWaiting | ret | shutdown | serverExit
  | pod => exact ha.elim

theorem not_serving_of_step (h : s.phase.serving = false) (hs : Step s a s') :
    s'.phase.serving = false :=
  Bool.eq_false_iff.mpr fun hc => by simp [serving_before hs hc] at h

theorem Fair.closes (hf : Fair b) (h : (b.state n).phase.serving = false) :
    ∃ m, n ≤ m ∧ (b.state m).phase = .closed := by
  obtain ⟨m, hm, hp⟩ := hf.rests n
  refine ⟨m, hm, hp.resolve_left fun hsel => ?_⟩
  have hno := b.stays (P := fun s => s.phase.serving = false)
    (fun h hs => not_serving_of_step h (machine_sound hs)) h hm
  simp [hsel, ServerlessPhase.serving] at hno

theorem Fair.takes (hf : Fair b) (hq : (call, t) :: q <+: (b.state n).queue) :
    ∃ m, n ≤ m ∧ ((b.state m).phase = .closed ∨ (b.state m).Logged call ∧ q <+: (b.state m).queue) := by
  have hstep : ∀ {k a}, b.act k = some a → Step (b.state k) a (b.state (k + 1)) :=
    fun hact => machine_sound (b.step _ _ hact)
  have hkeeps : b.Unless (fun s => (call, t) :: q <+: s.queue) fun s =>
      s.phase = .closed ∨ s.Logged call ∧ q <+: s.queue :=
    fun k a hact => queue_of_step (tracked b k).sequenced.labelled (hstep hact)
  obtain ⟨k, hk, hrest⟩ := hf.rests n
  obtain hq | ⟨m, hm, hdone⟩ := hkeeps.holds hq hk
  · obtain hsel | hclosed := hrest
    · -- the message at the head is taken, unless there is a signal before
      have hleads := hf.task.leadsTo
        (P := fun s => s.phase = .selecting ∧ (call, t) :: q <+: s.queue)
        (Q := fun s => s.phase.serving = false ∨ s.Logged call ∧ q <+: s.queue)
        (fun i a hact ⟨hp, hq⟩ => ?_) fun {s} ⟨hp, hq⟩ => ?_
      · obtain ⟨m, hm, hno | hdone⟩ := hleads k ⟨hsel, hq⟩
        · obtain ⟨i, hi, hclosed⟩ := hf.closes hno
          exact ⟨i, Nat.le_trans hk (Nat.le_trans hm hi), .inl hclosed⟩
        · exact ⟨m, Nat.le_trans hk hm, .inr hdone⟩
      · by_cases ha : a.ofTask
        · obtain ⟨io, rfl⟩ := recv_of_ofTask (hstep hact) hp ha
          exact .inr (.inr (logged_of_recv (tracked b i).sequenced.labelled (hstep hact) hq))
        · obtain ⟨hp, hmore⟩ | hno := selecting_of_step (hstep hact) hp ha
          · exact .inl ⟨ha, hp, hq.trans hmore⟩
          · exact .inr (.inl hno)
      · obtain ⟨rest, hrest⟩ := hq
        exact ⟨.recv {}, trivial, by simp [machine, step, hp, ← hrest]⟩
    · exact ⟨k, hk, .inl hclosed⟩
  · exact ⟨m, hm, hdone⟩

theorem Fair.logs (hf : Fair b) {pre : List (Nat × ServerlessTrigger)}
    (hq : pre ++ (call, t) :: q <+: (b.state n).queue) :
    ∃ m, n ≤ m ∧ ((b.state m).phase = .closed ∨ (b.state m).Logged call) := by
  induction pre generalizing n with
  | nil =>
    obtain ⟨m, hm, hdone⟩ := hf.takes hq
    exact ⟨m, hm, hdone.imp_right And.left⟩
  | cons first pre ih =>
    obtain ⟨m, hm, hclosed | ⟨-, hq⟩⟩ := hf.takes hq
    · exact ⟨m, hm, .inl hclosed⟩
    · obtain ⟨i, hi, hdone⟩ := ih hq
      exact ⟨i, Nat.le_trans hm hi, hdone⟩

end Queue

section Pods

variable {b : (machine c).Behaviour} {n : Nat}

def Reached (s : Runtime) (r : Nat) : Prop :=
  (∃ idx worker, (r, idx, worker) ∈ s.delivered) ∨ 0 < s.answered r

theorem reached_of_parts {o : PodOut} (h : PodTask.Parts o r) :
    ((s.setPod idx p').emit idx o).Reached r := by
  obtain h | ⟨worker, h⟩ := h
  · exact .inr (Nat.lt_of_lt_of_le h (Nat.le_trans (Nat.le_add_left _ _) answered_emit))
  · refine .inl ⟨idx, worker, ?_⟩
    rw [emit_delivered]
    exact List.mem_append_right _ (List.mem_map.mpr ⟨_, h, rfl⟩)

theorem carried_unless (b : (machine c).Behaviour) (idx r : Nat) :
    b.Unless (fun s => ∃ p, s.pods[idx]? = some p ∧ p.Carries r) fun s => s.Reached r := by
  rintro k a hact ⟨p, get, hc⟩
  obtain ⟨d, p', o, hstep, get', heq⟩ | ⟨queue, hq, get'⟩ :=
    pod_after (machine_sound (b.step k a hact)) get
  · exact (hc.step hstep).imp (fun hc => ⟨p', get', hc⟩) fun h => heq ▸ reached_of_parts h
  · refine .inl ⟨_, get', hc.imp_left fun h => ?_⟩
    obtain ⟨t, ht, hrt⟩ := List.mem_flatMap.mp h
    exact List.mem_flatMap.mpr ⟨t, hq.subset ht, hrt⟩

theorem handled_unless (b : (machine c).Behaviour) (idx : Nat) {phase : PodPhase}
    (hr : ∀ p : PodTask, p.phase = phase → r ∈ p.handling) :
    b.Unless (fun s => ∃ p, s.pods[idx]? = some p ∧ p.phase = phase) fun s => s.Reached r := by
  rintro k a hact ⟨p, get, hp⟩
  obtain ⟨d, p', o, hstep, get', heq⟩ | ⟨queue, hq, get'⟩ :=
    pod_after (machine_sound (b.step k a hact)) get
  · exact (PodTask.handling_of_step hstep (hr p hp)).imp (fun h => ⟨p', get', h.trans hp⟩)
      fun h => heq ▸ reached_of_parts h
  · exact .inl ⟨_, get', hp⟩

theorem Fair.hands (hf : Fair b) (get : (b.state n).pods[idx]? = some p) (hr : r ∈ p.handling) :
    ∃ m, n ≤ m ∧ (b.state m).Reached r := by
  have hstate := podAt_state (b := b) get
  cases hp : p.phase with
  | forwarding k trigger =>
    have hall : ∀ q : PodTask, q.phase = .forwarding k trigger → r ∈ q.handling := fun q hq => by
      simpa only [PodTask.handling, hq, hp] using hr
    obtain ⟨m, hm, hrecv, -⟩ := (hf.served idx).forwards (n := n) (q := []) (hstate ▸ hp)
      List.nil_prefix
    obtain ⟨q, get', hq⟩ | hdone := (handled_unless b idx hall).holds ⟨p, get, hp⟩ hm
    · rw [podAt_state get', hq] at hrecv
      cases hrecv
    · exact hdone
  | receiving | halting | haltWaiting | ended => simp [PodTask.handling, hp] at hr

theorem Fair.arrives (hf : Fair b) (get : (b.state n).pods[idx]? = some p) (hc : p.Carries r) :
    ∃ m, n ≤ m ∧ (b.state m).Reached r := by
  obtain hr | hr := hc
  · have hidx : idx < c.nThreads := pods_length b n ▸ (List.getElem?_eq_some_iff.mp get).1
    obtain ⟨t, ht, hrt⟩ := List.mem_flatMap.mp hr
    obtain ⟨pre, post, hq⟩ := List.append_of_mem ht
    have hprefix : pre ++ t :: post <+: ((podAt b idx).state n).queue :=
      ⟨[], by rw [podAt_state get, hq, List.append_nil]⟩
    obtain ⟨m, hm, hended | ⟨hact, hrecv⟩⟩ := (hf.served idx).received hprefix
    · -- a pod that has ended carries nothing
      obtain ⟨q, get', hc⟩ | hdone := (carried_unless b idx r).holds ⟨p, get, .inl hr⟩ hm
      · rw [podAt_state get'] at hended
        have hslots := (PodTask.regular (podAt b idx) m).slots
        rw [podAt_state get'] at hslots
        obtain hc | hc := hc
        · simp [PodTask.queued, hslots.closed hended] at hc
        · have hp : q.phase = .ended := by simpa [PodTask.rxOpen] using hended
          simp [PodTask.handling, hp] at hc
      · exact hdone
    · obtain ⟨p', o, hs, hnext⟩ :=
        step_pod (get_podAt (b := b) hidx) (b.step m _ (podAt_act.mp hact))
      have get' : (b.state (m + 1)).pods[idx]? = some p' := by
        rw [hnext, emit_pods, setPod_pods]
        exact List.getElem?_set_self (by rwa [pods_length])
      obtain hh | hparts := PodTask.handling_of_recv (PodTask.step_sound hs) hrecv.head hrt
      · obtain ⟨i, hi, hdone⟩ := hf.hands get' hh
        exact ⟨i, Nat.le_trans (Nat.le_succ_of_le hm) hi, hdone⟩
      · exact ⟨m + 1, Nat.le_succ_of_le hm, hnext ▸ reached_of_parts hparts⟩
  · exact hf.hands get hr

theorem Fair.reaches (hf : Fair b) (hr : 0 < (b.state n).working r + (b.state n).answered r) :
    ∃ m, n ≤ m ∧ (b.state m).Reached r := by
  obtain hw | ha : 0 < (b.state n).working r ∨ 0 < (b.state n).answered r := by omega
  · obtain ⟨h, hmem, hpos⟩ := List.exists_mem_ne_zero_of_sum_ne_zero (Nat.ne_of_gt hw)
    obtain ⟨p, hp, rfl⟩ := List.mem_map.mp hmem
    obtain ⟨idx, get⟩ := List.mem_iff_getElem?.mp hp
    by_cases hc : p.Carries r
    · exact hf.arrives get hc
    · -- what is in none of its messages is with one of its workers
      obtain ⟨hq, hh⟩ := not_or.mp hc
      have hworking : p.working r ≠ 0 := by
        simpa [PodTask.held, List.count_eq_zero.mpr hq, List.count_eq_zero.mpr hh] using hpos
      obtain ⟨h, hmem, hpos⟩ := List.exists_mem_ne_zero_of_sum_ne_zero hworking
      obtain ⟨w, hw, rfl⟩ := List.mem_map.mp hmem
      obtain ⟨worker, hworker⟩ := List.mem_iff_getElem?.mp hw
      have hd := (tracked b n).sequenced.traced.held idx p worker w r get hworker
        (Nat.pos_of_ne_zero hpos)
      exact ⟨n, Nat.le_refl n, .inl ⟨idx, worker, hd⟩⟩
  · exact ⟨n, Nat.le_refl n, .inr ha⟩

end Pods

section Responds

variable {b : (machine c).Behaviour} {n client idx wrk : Nat} {fs : FileSystem}

theorem answerOf_isSome (h : 0 < s.answered call) : (s.answerOf call op).isSome := by
  cases op with
  | removeWorker => rfl
  | createWorker | uploadWorker | sendHttpToWorker =>
    obtain ⟨⟨r, answer⟩, hm, rfl⟩ := List.mem_map.mp (List.count_pos_iff.mp h)
    exact List.lookup_isSome_iff.mpr ⟨_, hm, by simp⟩

structure Passed (s : Runtime) (call : Nat) : Prop where
  phase : s.phase = .selecting ∨ s.phase = .closed
  queue : call ∉ s.queue.map Prod.fst
  done : s.phase = .closed ∨ s.Logged call

theorem Tracked.passed (h : s.Tracked fs) (hp : s.phase = .selecting ∨ s.phase = .closed)
    (hd : s.phase = .closed ∨ s.Logged call) : s.Passed call where
  phase := hp
  queue := by
    obtain hclosed | hlog := hd
    · simp [h.closed hclosed]
    · intro hq
      have hnodup : s.order.Nodup := h.sequenced.ordered.nodup
      exact (List.nodup_append.mp hnodup).2.2 call hlog call hq rfl
  done := hd

theorem Passed.searching (h : s.Passed call) : s.phase.searching = none := by
  obtain hp | hp := h.phase <;> rw [hp] <;> rfl

theorem Passed.handling (h : s.Passed call) : s.handling = [] := by
  obtain hp | hp := h.phase <;> simp only [Runtime.handling, hp]

theorem Tracked.not_queued (h : s.Tracked fs) (hq : call ∉ s.queue.map Prod.fst) :
    s.queued.count call = 0 := by
  refine List.count_eq_zero.mpr fun hm => ?_
  obtain ⟨m, hmem, hr⟩ := List.mem_flatMap.mp hm
  obtain ⟨op, -, ht⟩ := h.sequenced.labelled.queue m hmem
  rw [ht] at hr
  refine hq (List.mem_map.mpr ⟨m, hmem, ?_⟩)
  cases op with
  | removeWorker => cases hr
  | createWorker | uploadWorker | sendHttpToWorker => exact (List.mem_singleton.mp hr).symm

theorem sending_of_left (h : s.fifo.Left call) : s.sending call = 0 := by
  obtain ⟨d, hd, hne⟩ := h
  obtain ⟨e, he, rfl⟩ : ∃ e, s.calls[call]? = some e ∧ (e.client, e.status) = d := by
    simpa [fifo] using hd
  simpa [sending, he] using hne

theorem done_stays {m : Nat} (h : (b.state n).phase = .closed ∨ (b.state n).Logged call)
    (hm : n ≤ m) : (b.state m).phase = .closed ∨ (b.state m).Logged call := by
  have hstays := b.stays (P := fun s => s.Labelled ∧ (s.phase = .closed ∨ s.Logged call))
    (fun {s a s'} h hs => ?_) ⟨(tracked b n).sequenced.labelled, h⟩ hm
  · exact hstays.2
  · have hs := machine_sound hs
    exact ⟨h.1.step hs, h.2.imp (closed_of_step hs) fun hlog => hlog.step h.1 hs⟩

theorem Fair.passes (hf : Fair b) (get : (b.state n).calls[call]? = some ⟨client, op, .waiting⟩) :
    ∃ m, n ≤ m ∧ (b.state m).Passed call := by
  have hdone : ∃ m, n ≤ m ∧ ((b.state m).phase = .closed ∨ (b.state m).Logged call) := by
    by_cases hclosed : (b.state n).phase = .closed
    · exact ⟨n, Nat.le_refl n, .inl hclosed⟩
    have hm := (tracked b n).sequenced.heard.complete hclosed call client (fifo_get get)
    obtain hlog | hq := List.mem_append.mp hm
    · exact ⟨n, Nat.le_refl n, .inr hlog⟩
    · obtain ⟨entry, hmem, rfl⟩ := List.mem_map.mp hq
      obtain ⟨pre, post, hsplit⟩ := List.append_of_mem hmem
      exact hf.logs ⟨[], by rw [hsplit, List.append_nil]⟩
  obtain ⟨m, hm, hdone⟩ := hdone
  obtain ⟨k, hk, hp⟩ := hf.rests m
  exact ⟨k, Nat.le_trans hm hk, (tracked b k).passed hp (done_stays hdone hk)⟩

theorem Fair.resolves (hf : Fair b) (get : (b.state n).calls[call]? = some ⟨client, op, .waiting⟩)
    {m : Nat} (hm : n ≤ m) (hpassed : (b.state m).Passed call) :
    ∃ k, m ≤ k ∧ (((b.state k).answerOf call op).isSome ∨ ∃ idx wrk, op = .sendHttpToWorker idx wrk ∧
      (call, idx, wrk) ∈ (b.state k).delivered) := by
  have hleft : (b.state m).fifo.Left call :=
    b.stays (P := fun s => s.fifo.Left call) (fun h hs => left_of_step (machine_sound hs) h)
      ⟨_, fifo_get get, by simp⟩ hm
  have hop : ∀ k, n ≤ k → (b.state k).opOf call = some op := fun k hk =>
    b.stays (P := fun s => s.opOf call = some op)
      (fun h hs => (grows_of_step (machine_sound hs)).ops call op h) (by simp [opOf, get]) hk
  have ht := tracked b m
  cases hasks : op.asks with
  | true =>
    obtain hq | hp | ha := ht.attended call op (hop m hm) hasks hleft
    · exact absurd hq hpassed.queue
    · simp [hpassed.searching] at hp
    · exact ⟨m, Nat.le_refl m, .inl (answerOf_isSome ha)⟩
  | false =>
    cases op with
    | createWorker | uploadWorker => cases hasks
    | removeWorker => exact ⟨m, Nat.le_refl m, .inl rfl⟩
    | sendHttpToWorker pod wrk =>
      have htotal := ht.conserved.http call pod wrk (hop m hm)
      rw [total, held, sending_of_left hleft, ht.not_queued hpassed.queue, hpassed.handling,
        List.count_nil] at htotal
      obtain ⟨k, hk, hreached⟩ := hf.reaches (b := b) (n := m) (r := call) (by omega)
      refine ⟨k, hk, ?_⟩
      obtain ⟨i, w, hd⟩ | ha := hreached
      · have hop' := ((tracked b k).sequenced.traced.delivered _ hd).1
        cases (hop k (Nat.le_trans hm hk)).symm.trans hop'
        exact .inr ⟨i, w, rfl, hd⟩
      · exact .inl (answerOf_isSome ha)

/-- `serverless_task` comes to every call that was sent, or to its end; then the client can read
its answer, but for that of an HTTP event, which is with its worker if it is not there. -/
theorem responds (hf : Fair b) (get : (b.state n).calls[call]? = some ⟨client, op, .waiting⟩) :
    ∃ m, n ≤ m ∧ ((b.state m).phase = .closed ∨ (b.state m).Logged call) ∧
      (((b.state m).answerOf call op).isSome ∨ ∃ idx wrk, op = .sendHttpToWorker idx wrk ∧
        (call, idx, wrk) ∈ (b.state m).delivered) := by
  obtain ⟨m, hm, hpassed⟩ := hf.passes get
  obtain ⟨k, hk, hanswer⟩ := hf.resolves get hm hpassed
  exact ⟨k, Nat.le_trans hm hk, done_stays hpassed.done hk, hanswer⟩

theorem responds_secondCall : ∃ b : (machine oneWorker).Behaviour, Fair b ∧
    ∃ m, 4 ≤ m ∧ ((b.state m).phase = .closed ∨ (b.state m).Logged 1) ∧
      (((b.state m).answerOf 1 (.createWorker "a")).isSome ∨ ∃ idx wrk,
        Op.createWorker "a" = .sendHttpToWorker idx wrk ∧ (1, idx, wrk) ∈ (b.state m).delivered) := by
  have hrun : (machine oneWorker).Run (firstCall ++ .recv {} :: secondCall) _ := rfl
  have hfair : Fair (Machine.Behaviour.ofRun hrun) := by
    refine ofRun_fair hrun (fun a ha => ?_) (fun idx a ha => ?_) (by decide +kernel)
    · cases a with
      | recv | send => rfl
      | _ => exact ha.elim
    · cases a with
      | pod i d =>
        obtain ⟨rfl, hd⟩ := ha
        cases d with
        | recv | send | token => cases i <;> rfl
        | _ => exact hd.elim
      | _ => exact ha.elim
  have get : ((Machine.Behaviour.ofRun hrun).state 4).calls[1]? =
      some ⟨1, .createWorker "a", .waiting⟩ := rfl
  exact ⟨_, hfair, responds hfair get⟩

end Responds

end Runtime

end Serverlessd
