import Serverlessd.Runtime.Serverless.Labels

namespace Serverlessd

namespace Runtime

variable {s s' : Runtime} {a : RuntimeAct} {idx : Nat} {p p' : PodTask} {o : PodOut}
variable {c : Config} {as : List RuntimeAct}

def taskOf (s : Runtime) (idx worker : Nat) : Option WorkerTask :=
  (s.pods[idx]?).bind fun p => (p.tasks[worker]?).map Worker.task

theorem taskOf_eq_some {worker : Nat} {task : WorkerTask} :
    s.taskOf idx worker = some task ↔
      ∃ p w, s.pods[idx]? = some p ∧ p.tasks[worker]? = some w ∧ w.task = task := by
  simp [taskOf, Option.bind_eq_some_iff, Option.map_eq_some_iff]

theorem Labelled.taskStarted (hl : s.Labelled) {worker : Nat} {task : WorkerTask}
    (ht : s.taskOf idx worker = some task) : s.Started task := by
  obtain ⟨p, w, hp, hw, rfl⟩ := taskOf_eq_some.mp ht
  exact (hl.pods idx p hp).tasks w (List.mem_of_getElem? hw)

theorem taskOf_of_step (hs : Step s a s') {worker : Nat} {task : WorkerTask}
    (ht : s.taskOf idx worker = some task) : s'.taskOf idx worker = some task := by
  obtain ⟨p, w, hp, hw, rfl⟩ := taskOf_eq_some.mp ht
  have hset : ∀ {i : Nat} {q q' : PodTask}, s.pods[i]? = some q → s'.pods = s.pods.set i q' →
      (∀ w, q.tasks[worker]? = some w → ∃ w', q'.tasks[worker]? = some w' ∧ w'.task = w.task) →
      s'.taskOf idx worker = some w.task := by
    intro i q q' hq hpods hkeep
    rw [taskOf_eq_some, hpods]
    by_cases hi : i = idx
    · subst hi
      obtain rfl : q = p := Option.some.inj (hq.symm.trans hp)
      obtain ⟨w', hw', htask⟩ := hkeep w hw
      exact ⟨q', w', List.getElem?_set_self (List.getElem?_eq_some_iff.mp hq).1, hw', htask⟩
    · exact ⟨p, w, by rwa [List.getElem?_set_ne hi], hw, rfl⟩
  have hsame : s'.pods = s.pods → s'.taskOf idx worker = some w.task := by
    intro hpods
    rwa [taskOf, hpods]
  cases hs with
  | sent sends get => exact hset get rfl fun w hw => ⟨w, hw, rfl⟩
  | pod get closed h => exact hset get emit_pods fun w hw => PodTask.task_of_step h hw
  | recv phase head h => cases h <;> exact hsame rfl
  | failed => exact hsame (by simp)
  | issue | enqueue | refuse | abandonSending | abandonWaiting | ret | noVacancy | allHalted | joined
  | shutdown | serverExit => exact hsame rfl

section Created

/-- At most one `CreateWorker` is with a pod, that of the call whose worker is awaited;
and an id that was given out is the place of the worker started for its call. -/
structure Placed (s : Runtime) : Prop where
  creating : ∀ idx p, s.pods[idx]? = some p →
    p.creating = [] ∨ ∃ call, p.creating = [call] ∧ s.phase = .awaitingWorker call idx
  created : ∀ call idx worker, (call, .created (some (idx, worker))) ∈ s.replies →
    ∃ task, s.taskOf idx worker = some task ∧ task.call = call

def NoneCreating (s : Runtime) : Prop :=
  ∀ (idx : Nat) (p : PodTask), s.pods[idx]? = some p → p.creating = []

theorem Placed.noneCreating (h : s.Placed) (hp : ∀ call idx, s.phase ≠ .awaitingWorker call idx) :
    s.NoneCreating :=
  fun idx p hget => (h.creating idx p hget).resolve_right fun ⟨call, _, hc⟩ => hp call idx hc

theorem not_created_mem_answers {replies : List (Nat × Option String)} {call : Nat}
    {x : Option (Nat × Nat)} : (call, Answer.created x) ∉ answers replies := by
  intro h
  obtain ⟨⟨r, b⟩, -, heq⟩ := List.mem_map.mp h
  cases b <;> simp at heq

theorem created_of_failed {call : Nat} {x : Nat × Nat}
    (h : (call, .created (some x)) ∈ s.failed.replies) : (call, .created (some x)) ∈ s.replies := by
  unfold failed at h
  split at h <;> simpa using h

theorem created_of_handled {io : Io} {n call : Nat} {trigger : ServerlessTrigger} {x : Nat × Nat}
    (hh : Handled s io n trigger s') (h : (call, .created (some x)) ∈ s'.replies) :
    (call, .created (some x)) ∈ s.replies := by
  cases hh <;> simpa using h

theorem created_of_deliver {reply : Option PodReply} {call : Nat} {result : Option (Nat × Nat)}
    (h : (call, .created result) ∈ (s.deliver reply).replies) :
    (call, .created result) ∈ s.replies ∨
      ∃ idx id, reply = some (.worker id) ∧ s.phase = .awaitingWorker call idx ∧
        result = some (idx, id) := by
  unfold deliver at h
  split at h
  · exact .inl h
  · exact .inl h
  · rename_i call' idx id hp
    simp only [answer_replies, List.mem_append, List.mem_singleton, Prod.mk.injEq,
      Answer.created.injEq] at h
    obtain h | ⟨rfl, rfl⟩ := h
    · exact .inl h
    · exact .inr ⟨idx, id, rfl, hp, rfl⟩
  · exact .inl h
  · exact .inl h

theorem deliver_awaitingWorker {reply : Option PodReply} {call idx : Nat}
    (hp : s.phase = .awaitingWorker call idx) (hr : ∀ id, reply ≠ some (.worker id)) :
    (s.deliver reply).phase = .awaitingWorker call idx := by
  unfold deliver
  split
  · simp_all
  · simp_all
  · exact absurd rfl (hr _)
  · simp_all
  · exact hp

theorem placed_start (c : Config) : (start c).Placed where
  creating := by
    intro idx p hp
    obtain ⟨-, rfl⟩ : idx < c.nThreads ∧ PodTask.start c.nWorkers = p := by
      simpa [start, List.getElem?_replicate] using hp
    exact .inl rfl
  created := by simp [start]

theorem Placed.congr (h : s.Placed)
    (htask : ∀ {i worker task}, s.taskOf i worker = some task → s'.taskOf i worker = some task)
    (hpods : s'.pods = s.pods)
    (hp : s'.phase = s.phase ∨ s.NoneCreating)
    (hr : ∀ call x, (call, .created (some x)) ∈ s'.replies → (call, .created (some x)) ∈ s.replies) :
    s'.Placed where
  creating := by
    intro idx p hget
    rw [hpods] at hget
    obtain hp | hp := hp
    · rw [hp]
      exact h.creating idx p hget
    · exact .inl (hp idx p hget)
  created := by
    intro call idx worker hm
    obtain ⟨task, ht, hc⟩ := h.created call idx worker (hr _ _ hm)
    exact ⟨task, htask ht, hc⟩

theorem Placed.pod (h : s.Placed) (hslots : p.Slots) {b : PodAct} (get : s.pods[idx]? = some p)
    (hs : PodTask.Step p b p' o) (hstep : Step s a ((s.setPod idx p').emit idx o)) :
    ((s.setPod idx p').emit idx o).Placed := by
  have hold : ∀ call x, (call, Answer.created (some x)) ∈ s.replies ++ answers o.replies →
      (call, Answer.created (some x)) ∈ s.replies := by
    intro call x hm
    exact (List.mem_append.mp hm).resolve_right not_created_mem_answers
  by_cases hr : ∃ id, o.reply = some (.worker id)
  · obtain ⟨id, hr⟩ := hr
    obtain ⟨w, hw, hcr⟩ := hslots.created_of_step hs hr
    obtain ⟨call, hc, hp⟩ := (h.creating idx p get).resolve_left (by simp [hcr])
    obtain ⟨rfl, hnil⟩ := List.cons.inj (hcr.symm.trans hc)
    constructor
    · intro i q hq
      rw [emit_pods] at hq
      obtain ⟨rfl, rfl⟩ | ⟨hi, hq⟩ := List.getElem?_set_cases hq
      · exact .inl hnil
      · refine .inl ((h.creating i q hq).resolve_right fun ⟨call', _, hp'⟩ => hi ?_)
        exact (ServerlessPhase.awaitingWorker.inj (hp'.symm.trans hp)).2
    · intro call' i worker hm
      obtain hm | ⟨j, id', hr', hp', hid⟩ := created_of_deliver hm
      · obtain ⟨task, ht, hc⟩ := h.created call' i worker (hold _ _ hm)
        exact ⟨task, taskOf_of_step hstep ht, hc⟩
      · obtain ⟨rfl, rfl⟩ := ServerlessPhase.awaitingWorker.inj (hp.symm.trans hp')
        obtain rfl : id = id' := by simpa [hr] using hr'
        obtain ⟨rfl, rfl⟩ := Prod.mk.inj (Option.some.inj hid)
        refine ⟨w.task, taskOf_eq_some.mpr ⟨p', w, ?_, hw, rfl⟩, rfl⟩
        rw [emit_pods]
        exact List.getElem?_set_self (List.getElem?_eq_some_iff.mp get).1
  · have hr : ∀ id, o.reply ≠ some (.worker id) := fun id hid => hr ⟨id, hid⟩
    constructor
    · intro i q hq
      rw [emit_pods] at hq
      have hcase : q.creating = [] ∨ ∃ call, q.creating = [call] ∧ s.phase = .awaitingWorker call i := by
        obtain ⟨rfl, rfl⟩ | ⟨-, hq⟩ := List.getElem?_set_cases hq
        · obtain hc | hc := PodTask.creating_of_step hs hr
          · rw [hc]
            exact h.creating i p get
          · exact .inl hc
        · exact h.creating i q hq
      refine hcase.imp_right fun ⟨call, hc, hp⟩ => ⟨call, hc, ?_⟩
      exact deliver_awaitingWorker (by exact hp) hr
    · intro call i worker hm
      obtain hm | ⟨-, id, hid, -⟩ := created_of_deliver hm
      · obtain ⟨task, ht, hc⟩ := h.created call i worker (hold _ _ hm)
        exact ⟨task, taskOf_of_step hstep ht, hc⟩
      · exact absurd hid (hr id)

theorem Labelled.creating_sent (h : s.Labelled) {trigger : PodTrigger} {next : ServerlessPhase}
    (hsends : s.phase.sends = some (idx, trigger, next)) (hp : p.creating = []) :
    ({ p with queue := p.queue ++ [trigger] } : PodTask).creating = [] ∨
      ∃ call, ({ p with queue := p.queue ++ [trigger] } : PodTask).creating = [call] ∧
        next = .awaitingWorker call idx := by
  have happend : ∀ t : PodTrigger, ({ p with queue := p.queue ++ [t] } : PodTask).creating =
      p.creating ++ ({ p with queue := [t] } : PodTask).creating :=
    fun t => List.filterMap_append
  have hphase := h.phase
  rw [happend, hp, List.nil_append]
  cases hs : s.phase <;> rw [hs] at hsends hphase <;> cases hsends
  case finding | halting => exact .inl rfl
  case placing => exact .inr ⟨_, rfl, rfl⟩
  case forwarding =>
    obtain ⟨wrk, r, rfl, -⟩ := hphase
    exact .inl rfl

theorem Placed.step (h : s.Placed) (hl : s.Labelled) (hs : Step s a s') : s'.Placed := by
  have htask : ∀ {i worker task}, s.taskOf i worker = some task → s'.taskOf i worker = some task :=
    taskOf_of_step hs
  have hid : ∀ call x, (call, Answer.created (some x)) ∈ s.replies →
      (call, Answer.created (some x)) ∈ s.replies := fun _ _ hm => hm
  cases hs with
  | issue | enqueue | ret | abandonWaiting => exact h.congr htask rfl (.inl rfl) hid
  | refuse | abandonSending => exact h.congr htask rfl (.inl rfl) (by simp)
  | recv phase head hh =>
    refine h.congr htask (by cases hh <;> rfl) (.inr (h.noneCreating (by simp [phase]))) ?_
    intro call x hm
    have hold := created_of_handled hh hm
    exact hold
  | noVacancy phase => exact h.congr htask rfl (.inr (h.noneCreating (by simp [phase]))) (by simp)
  | allHalted phase | shutdown phase =>
    exact h.congr htask rfl (.inr (h.noneCreating (by simp [phase]))) hid
  | joined phase | serverExit phase =>
    exact h.congr htask rfl (.inr (h.noneCreating (by simp [phase]))) (by simp [close])
  | @failed idx pod needs get rx =>
    refine h.congr htask failed_pods (.inr fun i q hq => ?_) fun _ _ hm => created_of_failed hm
    refine (h.creating i q hq).resolve_right fun hawaited => ?_
    obtain ⟨call, hc, hp⟩ := hawaited
    obtain rfl : i = idx := by simpa [hp, ServerlessPhase.sends, ServerlessPhase.awaits] using needs
    obtain rfl : pod = q := Option.some.inj (get.symm.trans hq)
    simp [PodTask.creating, (hl.pods _ _ get).slots.closed rx] at hc
  | @sent idx trigger next pod sends get rx room =>
    have hnone : s.NoneCreating := h.noneCreating fun call i hp => by
      simp [hp, ServerlessPhase.sends] at sends
    refine ⟨fun i q hq => ?_, fun call i worker hm => ?_⟩
    · obtain ⟨rfl, rfl⟩ | ⟨-, hq⟩ := List.getElem?_set_cases hq
      · exact hl.creating_sent sends (hnone _ _ get)
      · exact .inl (hnone i q hq)
    · obtain ⟨task, ht, hc⟩ := h.created call i worker hm
      exact ⟨task, htask ht, hc⟩
  | pod get closed hstep =>
    exact h.pod (hl.pods _ _ get).slots get hstep (.pod get closed hstep)

theorem placed_run (h : (machine c).Run as s) : s.Placed := by
  have hboth : s.Labelled ∧ s.Placed :=
    run_invariant (P := fun s => s.Labelled ∧ s.Placed) ⟨labelled_start c, placed_start c⟩
      (fun hi hs => ⟨hi.1.step hs, hi.2.step hi.1 hs⟩) h
  exact hboth.2

end Created

section Delivered

structure Traced (s : Runtime) : Prop where
  delivered : ∀ d ∈ s.delivered, s.opOf d.1 = some (.sendHttpToWorker d.2.1 d.2.2) ∧
    ∃ task, s.taskOf d.2.1 d.2.2 = some task
  held : ∀ (idx : Nat) (p : PodTask) (worker : Nat) (w : Worker) (r : Nat),
    s.pods[idx]? = some p → p.tasks[worker]? = some w → 0 < w.held r → (r, idx, worker) ∈ s.delivered
  answered : ∀ r body, (r, .http body) ∈ s.replies → ∃ idx worker, (r, idx, worker) ∈ s.delivered

theorem http_mem_answers {replies : List (Nat × Option String)} {r : Nat} {body : String} :
    (r, Answer.http body) ∈ answers replies ↔ (r, some body) ∈ replies := by
  simp only [answers, List.mem_map, Prod.mk.injEq]
  constructor
  · rintro ⟨⟨r', b⟩, hm, rfl, hb⟩
    cases b with
    | none => cases hb
    | some b => cases hb; exact hm
  · exact fun hm => ⟨_, hm, rfl, rfl⟩

theorem http_of_handled {io : Io} {n r : Nat} {trigger : ServerlessTrigger} {body : String}
    (hh : Handled s io n trigger s') (h : (r, .http body) ∈ s'.replies) :
    (r, .http body) ∈ s.replies := by
  cases hh <;> simpa using h

theorem http_of_failed {r : Nat} {body : String} (h : (r, .http body) ∈ s.failed.replies) :
    (r, .http body) ∈ s.replies := by
  unfold failed at h
  split at h <;> simpa using h

theorem http_of_deliver {reply : Option PodReply} {r : Nat} {body : String}
    (h : (r, .http body) ∈ (s.deliver reply).replies) : (r, .http body) ∈ s.replies := by
  unfold deliver at h
  split at h <;> simpa using h

theorem http_of_step (hs : Step s a s') (ha : ∀ idx b, a ≠ .pod idx b) {r : Nat} {body : String}
    (h : (r, .http body) ∈ s'.replies) : (r, .http body) ∈ s.replies := by
  cases hs with
  | pod => exact absurd rfl (ha _ _)
  | recv phase head hh =>
    have hold := http_of_handled hh h
    exact hold
  | failed => exact http_of_failed h
  | joined | serverExit => simpa [close] using h
  | sent => exact h
  | issue | enqueue | refuse | abandonSending | abandonWaiting | ret | noVacancy | allHalted
  | shutdown => simpa using h

theorem traced_start (c : Config) : (start c).Traced where
  delivered := by simp [start]
  held := by
    intro idx p worker w r hp hw
    obtain ⟨-, rfl⟩ : idx < c.nThreads ∧ PodTask.start c.nWorkers = p := by
      simpa [start, List.getElem?_replicate] using hp
    simp [PodTask.start] at hw
  answered := by simp [start]

theorem Traced.congr (h : s.Traced) (hg : Grows s s')
    (htask : ∀ {i worker task}, s.taskOf i worker = some task → s'.taskOf i worker = some task)
    (hd : s'.delivered = s.delivered)
    (hpods : ∀ (i : Nat) (q : PodTask), s'.pods[i]? = some q →
      ∃ p : PodTask, s.pods[i]? = some p ∧ q.tasks = p.tasks)
    (hr : ∀ r body, (r, .http body) ∈ s'.replies → (r, .http body) ∈ s.replies) : s'.Traced where
  delivered := by
    intro d hm
    obtain ⟨ho, task, ht⟩ := h.delivered d (hd ▸ hm)
    exact ⟨hg.ops _ _ ho, task, htask ht⟩
  held := by
    intro i q worker w r hq hw hheld
    obtain ⟨p, hp, htasks⟩ := hpods i q hq
    exact hd ▸ h.held i p worker w r hp (htasks ▸ hw) hheld
  answered := by
    intro r body hm
    rw [hd]
    exact h.answered r body (hr r body hm)

theorem Traced.pod (h : s.Traced) (hl : s.PodLabelled idx p) {b : PodAct}
    (get : s.pods[idx]? = some p) (hs : PodTask.Step p b p' o)
    (hstep : Step s a ((s.setPod idx p').emit idx o)) : ((s.setPod idx p').emit idx o).Traced where
  delivered := by
    intro d hd
    rw [emit_delivered, List.mem_append] at hd
    obtain hd | hd := hd
    · obtain ⟨ho, task, ht⟩ := h.delivered d hd
      exact ⟨(grows_of_step hstep).ops _ _ ho, task, taskOf_of_step hstep ht⟩
    · obtain ⟨e, he, rfl⟩ := List.mem_map.mp hd
      obtain ⟨trigger, hp, hr, hlt⟩ := PodTask.delivered_of_step hs he
      refine ⟨(grows_of_step hstep).ops _ _ (hl.forwarding _ _ hp _ hr), p'.tasks[e.2].task, ?_⟩
      refine taskOf_eq_some.mpr ⟨p', p'.tasks[e.2], ?_, List.getElem?_eq_getElem hlt, rfl⟩
      rw [emit_pods]
      exact List.getElem?_set_self (List.getElem?_eq_some_iff.mp get).1
  held := by
    intro i q worker w r hq hw hheld
    rw [emit_pods] at hq
    rw [emit_delivered, List.mem_append]
    obtain ⟨rfl, rfl⟩ | ⟨-, hq⟩ := List.getElem?_set_cases hq
    · obtain ⟨v, hv, hpos⟩ | hd := PodTask.held_of_step hs hw hheld
      · exact .inl (h.held i p worker v r get hv hpos)
      · exact .inr (List.mem_map.mpr ⟨_, hd, rfl⟩)
    · exact .inl (h.held i q worker w r hq hw hheld)
  answered := by
    intro r body hm
    rw [emit_delivered]
    obtain hm | hm := List.mem_append.mp (http_of_deliver hm)
    · obtain ⟨i, worker, hd⟩ := h.answered r body hm
      exact ⟨i, worker, List.mem_append_left _ hd⟩
    · obtain ⟨worker, w, hw, hpos⟩ := PodTask.answered_of_step hs (http_mem_answers.mp hm)
      exact ⟨idx, worker, List.mem_append_left _ (h.held idx p worker w r get hw hpos)⟩

theorem Traced.step (h : s.Traced) (hl : s.Labelled) (hs : Step s a s') : s'.Traced := by
  have hg := grows_of_step hs
  have htask : ∀ {i worker task}, s.taskOf i worker = some task → s'.taskOf i worker = some task :=
    taskOf_of_step hs
  have hsame : ∀ (i : Nat) (q : PodTask), s.pods[i]? = some q →
      ∃ p : PodTask, s.pods[i]? = some p ∧ q.tasks = p.tasks := fun i q hq => ⟨q, hq, rfl⟩
  have hhttp : (∀ idx b, a ≠ .pod idx b) → ∀ r body, (r, Answer.http body) ∈ s'.replies →
      (r, Answer.http body) ∈ s.replies := fun ha _ _ => http_of_step hs ha
  cases hs with
  | issue | enqueue | refuse | abandonSending | abandonWaiting | ret | noVacancy | allHalted
  | joined | shutdown | serverExit => exact h.congr hg htask rfl hsame (hhttp (by simp))
  | recv phase head hh =>
    refine h.congr hg htask (by cases hh <;> rfl) ?_ (hhttp (by simp))
    cases hh <;> exact hsame
  | failed =>
    exact h.congr hg htask failed_delivered (by simpa using hsame) (hhttp (by simp))
  | sent sends get =>
    refine h.congr hg htask rfl (fun i q hq => ?_) (hhttp (by simp))
    obtain ⟨rfl, rfl⟩ | ⟨-, hq⟩ := List.getElem?_set_cases hq
    · exact ⟨_, get, rfl⟩
    · exact ⟨q, hq, rfl⟩
  | pod get closed hstep => exact h.pod (hl.pods _ _ get) get hstep (.pod get closed hstep)

theorem traced_run (h : (machine c).Run as s) : s.Traced := by
  have hboth : s.Labelled ∧ s.Traced :=
    run_invariant (P := fun s => s.Labelled ∧ s.Traced) ⟨labelled_start c, traced_start c⟩
      (fun hi hs => ⟨hi.1.step hs, hi.2.step hi.1 hs⟩) h
  exact hboth.2

end Delivered

/-- The ids given to `call` lead to the worker that was started with the source which the
code store had when `call` was processed; and an HTTP event sent with them reaches no
other worker, and is answered by a string only through that worker. -/
def LeadsTo (s : Runtime) (call idx worker : Nat) : Prop :=
  ∃ name source, s.opOf call = some (.createWorker name) ∧
    s.taskOf idx worker = some ⟨source, call⟩ ∧
    (∃ e ∈ s.log, e.call = call ∧ e.source = some source ∧ Reads e.fs name source) ∧
    ∀ r, s.opOf r = some (.sendHttpToWorker idx worker) →
      (∀ d ∈ s.delivered, d.1 = r → d.2 = (idx, worker)) ∧
      ∀ body, (r, .http body) ∈ s.replies → (r, idx, worker) ∈ s.delivered

/-- Whatever the clients do, ids are given out once and lead to the worker of their call. -/
theorem routing_isolated (h : (machine c).Run as s) :
    (∀ call call' x, (call, .created (some x)) ∈ s.replies →
      (call', .created (some x)) ∈ s.replies → call = call') ∧
    ∀ call idx worker, (call, .created (some (idx, worker))) ∈ s.replies →
      s.LeadsTo call idx worker := by
  have hl := labelled_run h
  have hp := placed_run h
  have ht := traced_run h
  constructor
  · rintro call call' ⟨idx, worker⟩ hc hc'
    obtain ⟨task, htask, rfl⟩ := hp.created call idx worker hc
    obtain ⟨task', htask', rfl⟩ := hp.created call' idx worker hc'
    rw [Option.some.inj (htask.symm.trans htask')]
  · intro call idx worker hc
    obtain ⟨task, htask, rfl⟩ := hp.created call idx worker hc
    obtain ⟨p, w, hget, hw, rfl⟩ := taskOf_eq_some.mp htask
    obtain ⟨e, he, hcall, hsource⟩ := (hl.pods idx p hget).tasks w (List.mem_of_getElem? hw)
    obtain ⟨name, ho, hr⟩ := hl.log e he _ hsource
    refine ⟨name, w.task.source, hcall ▸ ho, htask, ⟨e, he, hcall, hsource, hr⟩, fun r hop => ?_⟩
    have hroute : ∀ d ∈ s.delivered, d.1 = r → d.2 = (idx, worker) := by
      intro d hd hr
      have := (ht.delivered d hd).1
      rw [hr, hop] at this
      cases d
      simp_all
    refine ⟨hroute, fun body hm => ?_⟩
    obtain ⟨i, v, hd⟩ := ht.answered r body hm
    have := hroute _ hd rfl
    simp_all

def oneWorker : Config where
  nThreads := 1
  nWorkers := 1
  fs := ⟨⟨[]⟩, fun _ => some "x".toUTF8, []⟩

def oneRequest : List RuntimeAct :=
  [.issue 0 (.createWorker "a"), .enqueue 0, .recv {}, .send, .pod 0 .recv, .send, .pod 0 .recv,
    .ret 0, .issue 0 (.sendHttpToWorker 0 0), .enqueue 1, .recv {}, .send, .pod 0 .recv, .pod 0 .send]

theorem routing_isolated_oneRequest :
    ∃ s, (machine oneWorker).Run oneRequest s ∧ (1, 0, 0) ∈ s.delivered ∧ s.LeadsTo 0 0 0 := by
  obtain ⟨s, hs, hd, hc⟩ : ∃ s, (machine oneWorker).Run oneRequest s ∧ (1, 0, 0) ∈ s.delivered ∧
      (0, .created (some (0, 0))) ∈ s.replies := ⟨_, rfl, by decide, by decide⟩
  exact ⟨s, hs, hd, (routing_isolated hs).2 0 0 0 hc⟩

end Runtime

end Serverlessd
