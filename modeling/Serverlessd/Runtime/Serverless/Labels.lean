import Serverlessd.Runtime.Pod.Slots
import Serverlessd.Runtime.Serverless.CodeStoreLaws
import Serverlessd.Runtime.Serverless.TaskLaws

open FileSystem

namespace Serverlessd

namespace Runtime

def opOf (s : Runtime) (call : Nat) : Option Op := (s.calls[call]?).map Call.op

def Started (s : Runtime) (task : WorkerTask) : Prop :=
  ∃ e ∈ s.log, e.call = task.call ∧ e.source = some task.source

def Reads (fs : FileSystem) (name source : String) : Prop :=
  (fs.files (CodeStore.codeFile fs.cwd name)).bind String.fromUTF8? = some source

def Addressed (s : Runtime) (idx : Nat) : PodTrigger → Prop
  | .createWorker task => s.Started task
  | .toWorker id trigger => ∀ r ∈ trigger.replies, s.opOf r = some (.sendHttpToWorker idx id)
  | _ => True

structure PodLabelled (s : Runtime) (idx : Nat) (p : PodTask) : Prop where
  slots : p.Slots
  queue : ∀ t ∈ p.queue, s.Addressed idx t
  forwarding : ∀ worker trigger, p.phase = .forwarding worker trigger →
    ∀ r ∈ trigger.replies, s.opOf r = some (.sendHttpToWorker idx worker)
  tasks : ∀ w ∈ p.tasks, s.Started w.task

def PhaseLabelled (s : Runtime) : ServerlessPhase → Prop
  | .finding task _ | .awaitingVacancy task _ | .placing task _ => s.Started task
  | .awaitingWorker call _ => ∃ source, s.Started ⟨source, call⟩
  | .forwarding id trigger => ∃ wrk r, trigger = .toWorker wrk (.http r) ∧
    s.opOf r = some (.sendHttpToWorker id wrk)
  | _ => True

structure Labelled (s : Runtime) : Prop where
  queue : ∀ m ∈ s.queue, ∃ op, s.opOf m.1 = some op ∧ m.2 = op.trigger m.1
  log : ∀ e ∈ s.log, ∀ source, e.source = some source →
    ∃ name, s.opOf e.call = some (.createWorker name) ∧ Reads e.fs name source
  phase : s.PhaseLabelled s.phase
  pods : ∀ idx p, s.pods[idx]? = some p → s.PodLabelled idx p

structure Grows (s s' : Runtime) : Prop where
  ops : ∀ call op, s.opOf call = some op → s'.opOf call = some op
  log : ∀ e ∈ s.log, e ∈ s'.log

variable {s s' : Runtime} {a : RuntimeAct} {idx : Nat} {p p' : PodTask} {o : PodOut}

theorem Grows.started (h : Grows s s') {task : WorkerTask} (ht : s.Started task) :
    s'.Started task := by
  obtain ⟨e, he, hc, hs⟩ := ht
  exact ⟨e, h.log e he, hc, hs⟩

theorem Grows.addressed (h : Grows s s') {t : PodTrigger} (ht : s.Addressed idx t) :
    s'.Addressed idx t := by
  cases t with
  | createWorker task => exact h.started ht
  | toWorker id trigger => exact fun r hr => h.ops r _ (ht r hr)
  | checkVacancies | halt => trivial

theorem Grows.podLabelled (h : Grows s s') (hp : s.PodLabelled idx p) : s'.PodLabelled idx p where
  slots := hp.slots
  queue := fun t ht => h.addressed (hp.queue t ht)
  forwarding := fun w t hf r hr => h.ops r _ (hp.forwarding w t hf r hr)
  tasks := fun w hw => h.started (hp.tasks w hw)

theorem Grows.phaseLabelled (h : Grows s s') {phase : ServerlessPhase}
    (hp : s.PhaseLabelled phase) : s'.PhaseLabelled phase := by
  cases phase with
  | finding | awaitingVacancy | placing => exact h.started hp
  | awaitingWorker =>
    obtain ⟨source, hs⟩ := hp
    exact ⟨source, h.started hs⟩
  | forwarding =>
    obtain ⟨wrk, r, ht, ho⟩ := hp
    exact ⟨wrk, r, ht, h.ops _ _ ho⟩
  | selecting | halting | awaitingHalt | joining | closed => trivial

theorem grows_of_eq (hc : s'.calls = s.calls) (hl : s'.log = s.log) : Grows s s' :=
  ⟨fun call op h => by rwa [opOf, hc], fun e he => hl ▸ he⟩

theorem opOf_setStatus (s : Runtime) (call c : Nat) (status : Fifo.Status) :
    (s.setStatus call status).opOf c = s.opOf c := by
  simp only [opOf, setStatus, List.getElem?_modify]
  cases s.calls[c]? with
  | none => rfl
  | some x =>
    simp only [Option.map_eq_map, Option.map_some]
    split <;> rfl

theorem grows_of_setStatus {call : Nat} {status : Fifo.Status}
    (hc : s'.calls = (s.setStatus call status).calls) (hl : s'.log = s.log) : Grows s s' :=
  ⟨fun c op h => by rwa [opOf, hc, ← opOf, opOf_setStatus], fun e he => hl ▸ he⟩

theorem grows_of_handled {io : Io} {call : Nat} {trigger : ServerlessTrigger}
    (h : Handled s io call trigger s') : Grows s s' := by
  cases h <;> exact ⟨fun _ _ h => h, fun e he => List.mem_append_left _ he⟩

theorem grows_of_step (hs : Step s a s') : Grows s s' := by
  cases hs with
  | issue =>
    refine ⟨fun call op h => ?_, fun e he => he⟩
    obtain ⟨c, hc, rfl⟩ := Option.map_eq_some_iff.mp h
    simp [opOf, List.getElem?_append_left (List.getElem?_eq_some_iff.mp hc).1, hc]
  | enqueue | refuse | abandonSending | abandonWaiting | ret => exact grows_of_setStatus rfl rfl
  | recv phase head h =>
    have hg := grows_of_handled h
    exact ⟨hg.ops, hg.log⟩
  | failed => exact grows_of_eq failed_calls failed_log
  | pod => exact grows_of_eq emit_calls emit_log
  | sent | noVacancy | allHalted | joined | shutdown | serverExit => exact grows_of_eq rfl rfl

theorem labelled_start (c : Config) : (start c).Labelled where
  queue := by simp [start]
  log := by simp [start]
  phase := trivial
  pods := by
    intro idx p hp
    obtain ⟨-, rfl⟩ : idx < c.nThreads ∧ PodTask.start c.nWorkers = p := by
      simpa [start, List.getElem?_replicate] using hp
    exact ⟨PodTask.slots_start _, by simp [PodTask.start], by simp [PodTask.start],
      by simp [PodTask.start]⟩

theorem Labelled.move (h : s.Labelled) (hg : Grows s s') (hq : ∀ m ∈ s'.queue, m ∈ s.queue)
    (hl : s'.log = s.log) (hp : s.PhaseLabelled s'.phase)
    (hpods : ∀ idx p, s'.pods[idx]? = some p → s.PodLabelled idx p) : s'.Labelled where
  queue := by
    intro m hm
    obtain ⟨op, ho, ht⟩ := h.queue m (hq m hm)
    exact ⟨op, hg.ops _ _ ho, ht⟩
  log := by
    intro e he source hs
    obtain ⟨name, ho, hr⟩ := h.log e (hl ▸ he) source hs
    exact ⟨name, hg.ops _ _ ho, hr⟩
  phase := hg.phaseLabelled hp
  pods := fun idx p hget => hg.podLabelled (hpods idx p hget)

theorem PodLabelled.step (h : s.PodLabelled idx p) {b : PodAct} (hs : PodTask.Step p b p' o) :
    s.PodLabelled idx p' where
  slots := h.slots.step hs
  queue := fun t ht => h.queue t (PodTask.queue_of_step hs ht)
  forwarding := by
    intro worker trigger hp
    obtain hp | hq := h.slots.forwarding_of_step hs hp
    · exact h.forwarding worker trigger hp
    · exact h.queue _ hq
  tasks := by
    intro w hw
    obtain ⟨v, hv, htask⟩ | hq := PodTask.mem_tasks_of_step hs hw
    · exact htask ▸ h.tasks v hv
    · exact h.queue _ hq

theorem PhaseLabelled.deliver (h : s.PhaseLabelled s'.phase) (reply : Option PodReply) :
    s.PhaseLabelled (s'.deliver reply).phase := by
  unfold Runtime.deliver
  split <;> simp_all [PhaseLabelled]

theorem PhaseLabelled.failed (h : s.PhaseLabelled s.phase) : s.PhaseLabelled s.failed.phase := by
  unfold Runtime.failed
  split <;> simp_all [PhaseLabelled]

theorem Labelled.set_pods (h : s.Labelled) (hp : s.PodLabelled idx p) (i : Nat) (q : PodTask)
    (hq : (s.pods.set idx p)[i]? = some q) : s.PodLabelled i q := by
  obtain ⟨rfl, rfl⟩ | ⟨-, hq⟩ := List.getElem?_set_cases hq
  · exact hp
  · exact h.pods i q hq

theorem reads_of_get {fs : FileSystem} {io : Io} {name source : String}
    (h : (CodeStore.getWorkerCode fs io name).2 = some source) :
    Reads (CodeStore.getWorkerCode fs io name).1 name source := by
  simp only [Reads, CodeStore.get_cwd]
  simp only [CodeStore.getWorkerCode, read_files] at h ⊢
  obtain ⟨content, hc, hs⟩ := Option.bind_eq_some_iff.mp h
  unfold FileSystem.read at hc
  split at hc
  · cases hc
  · obtain ⟨-, hc⟩ := Option.ite_none_right_eq_some.mp hc
    rw [CodeStore.checkFs_resolve] at hc
    rw [hc]
    exact hs

theorem Labelled.handled (h : s.Labelled) {io : Io} {call : Nat} {trigger : ServerlessTrigger}
    {op : Op} (hop : s.opOf call = some op) (htrigger : trigger = op.trigger call)
    (hh : Handled s io call trigger s') : s'.Labelled := by
  have hg := grows_of_handled hh
  have hpods : ∀ idx p, s.pods[idx]? = some p → s'.PodLabelled idx p :=
    fun idx p hp => hg.podLabelled (h.pods idx p hp)
  have hqueue : ∀ m ∈ s.queue, ∃ op, s'.opOf m.1 = some op ∧ m.2 = op.trigger m.1 := by
    intro m hm
    obtain ⟨op, ho, ht⟩ := h.queue m hm
    exact ⟨op, hg.ops _ _ ho, ht⟩
  have hlog : ∀ e ∈ s.log, ∀ source, e.source = some source →
      ∃ name, s'.opOf e.call = some (.createWorker name) ∧ Reads e.fs name source := by
    intro e he source hs
    obtain ⟨name, ho, hr⟩ := h.log e he source hs
    exact ⟨name, hg.ops _ _ ho, hr⟩
  have hlast : ∀ e, e.source = none → ∀ e' ∈ s.log ++ [e], ∀ source, e'.source = some source →
      ∃ name, s'.opOf e'.call = some (.createWorker name) ∧ Reads e'.fs name source := by
    intro e hn e' he' source hs
    obtain he' | rfl : e' ∈ s.log ∨ e' = e := by simpa using he'
    · exact hlog e' he' source hs
    · simp [hn] at hs
  cases hh with
  | unreadable | unknown | upload | remove =>
    exact ⟨hqueue, hlast _ rfl, hg.phaseLabelled h.phase, hpods⟩
  | forward =>
    refine ⟨hqueue, hlast _ rfl, ?_, hpods⟩
    cases op with
    | sendHttpToWorker pod wrk =>
      obtain ⟨rfl, rfl⟩ : _ = pod ∧ _ = PodTrigger.toWorker wrk (.http call) := by
        simpa [Op.trigger] using htrigger
      exact ⟨wrk, call, rfl, hop⟩
    | createWorker | uploadWorker | removeWorker => cases htrigger
  | @readable name reply source read =>
    refine ⟨hqueue, ?_, ?_, hpods⟩
    · intro e he source' hs
      obtain he | rfl := List.mem_append.mp he |>.imp_right List.mem_singleton.mp
      · exact hlog e he source' hs
      · cases op with
        | createWorker n =>
          obtain ⟨rfl, -⟩ : name = n ∧ reply = call := by simpa [Op.trigger] using htrigger
          obtain rfl := Option.some.inj hs
          exact ⟨name, hop, reads_of_get read⟩
        | sendHttpToWorker | uploadWorker | removeWorker => cases htrigger
    · refine ⟨⟨call, io, some source, _⟩, List.mem_append_right _ List.mem_cons_self, ?_, rfl⟩
      cases op with
      | createWorker n =>
        obtain ⟨-, rfl⟩ : name = n ∧ reply = call := by simpa [Op.trigger] using htrigger
        rfl
      | sendHttpToWorker | uploadWorker | removeWorker => cases htrigger

theorem Labelled.started (h : s.Labelled) {task : WorkerTask} (ht : s.Started task) :
    ∃ name, s.opOf task.call = some (.createWorker name) := by
  obtain ⟨e, he, hc, hs⟩ := ht
  obtain ⟨name, ho, -⟩ := h.log e he _ hs
  exact ⟨name, hc ▸ ho⟩

theorem Labelled.awaited (h : s.Labelled) {call : Nat} (hp : s.phase = .awaitingWorker call idx) :
    ∃ name, s.opOf call = some (.createWorker name) := by
  have hphase := h.phase
  rw [hp] at hphase
  obtain ⟨source, hs⟩ := hphase
  exact h.started hs

theorem Labelled.sent (h : s.Labelled) {trigger : PodTrigger} {next : ServerlessPhase}
    (hsends : s.phase.sends = some (idx, trigger, next)) :
    s.Addressed idx trigger ∧ s.PhaseLabelled next := by
  have hphase := h.phase
  cases hp : s.phase with
  | finding | halting =>
    rw [hp] at hphase hsends
    cases hsends
    exact ⟨trivial, hphase⟩
  | placing =>
    rw [hp] at hphase hsends
    cases hsends
    exact ⟨hphase, _, hphase⟩
  | forwarding =>
    rw [hp] at hphase hsends
    cases hsends
    obtain ⟨wrk, r, rfl, ho⟩ := hphase
    refine ⟨fun r' hr => ?_, trivial⟩
    obtain rfl : r' = r := by simpa [WorkerTrigger.replies] using hr
    exact ho
  | selecting | awaitingVacancy | awaitingWorker | awaitingHalt | joining | closed =>
    rw [hp] at hsends
    cases hsends

theorem PodLabelled.push (h : s.PodLabelled idx p) {trigger : PodTrigger} (rx : p.rxOpen = true)
    (ha : s.Addressed idx trigger) :
    s.PodLabelled idx { p with queue := p.queue ++ [trigger] } where
  slots := ⟨h.slots.vacancies, h.slots.workers, fun hc => absurd (rx.symm.trans hc) (by simp)⟩
  queue := by
    intro t ht
    obtain ht | rfl := List.mem_append.mp ht |>.imp_right List.mem_singleton.mp
    · exact h.queue t ht
    · exact ha
  forwarding := h.forwarding
  tasks := h.tasks

theorem Labelled.step (h : s.Labelled) (hs : Step s a s') : s'.Labelled := by
  have hg := grows_of_step hs
  have hself : ∀ m ∈ s.queue, m ∈ s.queue := fun _ hm => hm
  cases hs with
  | issue | refuse | abandonSending | abandonWaiting | ret =>
    exact h.move hg hself rfl h.phase h.pods
  | @enqueue call client op sending =>
    refine ⟨fun m hm => ?_, ?_, hg.phaseLabelled h.phase,
      fun idx p hp => hg.podLabelled (h.pods idx p hp)⟩
    · obtain hm | rfl : m ∈ s.queue ∨ m = (call, op.trigger call) := by simpa using hm
      · obtain ⟨op, ho, ht⟩ := h.queue m hm
        exact ⟨op, hg.ops _ _ ho, ht⟩
      · exact ⟨op, hg.ops _ _ (by simp [opOf, sending]), rfl⟩
    · intro e he source hsource
      obtain ⟨name, ho, hr⟩ := h.log e he source hsource
      exact ⟨name, hg.ops _ _ ho, hr⟩
  | @recv _ io call trigger queue phase head hh =>
    obtain ⟨op, hop, ht⟩ := h.queue _ (head ▸ List.mem_cons_self)
    have hrest : ({ s with queue } : Runtime).Labelled :=
      h.move (grows_of_eq rfl rfl) (fun m hm => head ▸ List.mem_cons_of_mem _ hm) rfl h.phase h.pods
    exact hrest.handled hop ht hh
  | sent sends get rx room =>
    obtain ⟨haddr, hnext⟩ := h.sent sends
    exact h.move hg hself rfl hnext (h.set_pods ((h.pods _ _ get).push rx haddr))
  | failed needs get rx =>
    exact h.move hg (by simp) (by simp) h.phase.failed (by simpa using h.pods)
  | noVacancy | allHalted | shutdown => exact h.move hg hself rfl trivial h.pods
  | joined | serverExit => exact h.move hg (by simp [close]) rfl trivial h.pods
  | @pod idx b p p' o get closed hstep =>
    refine h.move hg (by simp [setPod]) (by simp [setPod])
      (PhaseLabelled.deliver (by exact h.phase) o.reply) ?_
    simpa using h.set_pods ((h.pods idx p get).step hstep)

theorem labelled_run {c : Config} {as : List RuntimeAct} (h : (machine c).Run as s) : s.Labelled :=
  run_invariant (labelled_start c) Labelled.step h

end Runtime

end Serverlessd
