import Serverlessd.Lib.Fair
import Serverlessd.Runtime.Pod.Allocator
import Serverlessd.Runtime.Pod.LocalSet

namespace Serverlessd

namespace Worker

variable {w w' : Worker} {a : WorkerAct} {o : WorkerOut}

def events (w : Worker) : List WorkerTrigger :=
  match w.phase with
  | .checkpoint event => event :: w.queue
  | _ => w.queue

def Processes (w : Worker) : WorkerAct → Prop
  | .recv => True
  | .resume | .terminate => ∃ event, w.phase = .checkpoint event
  | _ => False

def backlog (w : Worker) : Nat :=
  w.queue.length + w.events.length +
    match w.monitor with
    | .watching | .halting => 2
    | .waiting | .finished => 0

theorem backlog_le_of_events (h : w.events = []) : w.backlog ≤ 2 := by
  have hq : w.queue = [] := by
    unfold events at h
    split at h
    · cases h
    · exact h
  unfold backlog
  cases w.monitor <;> simp [h, hq]

theorem backlog_resumed (hr : Resumed w w' o) :
    w'.backlog ≤ w.backlog ∧ ((∃ event, w.phase = .checkpoint event) → w'.backlog < w.backlog) := by
  cases hr with
  | halt phase | call phase | skip phase =>
    simp only [backlog, events, phase, swept, gone, List.length_cons, List.length_nil]
    omega
  | drained phase => simp [backlog, events, phase]
  | @polled future closing phase => cases closing <;> simp [backlog, events, phase]

theorem backlog_returned {reply : Nat} {result : CallResult} (phase : w.phase = .calling reply)
    (hr : Returned w reply result w' o) : w'.backlog ≤ w.backlog := by
  cases hr <;> simp [backlog, events, phase, gone, registered]

theorem backlog_step (hs : Step w a w' o) (ha : ∀ trigger, a ≠ .push trigger) :
    w'.backlog ≤ w.backlog ∧ (w.Processes a → w'.backlog < w.backlog) := by
  cases hs with
  | push => exact absurd rfl (ha _)
  | @recv event queue phase head =>
    simp only [backlog, events, phase, head, List.length_cons]
    omega
  | resume drained hr => exact backlog_resumed hr
  | terminate flag hr =>
    have h := backlog_resumed hr
    exact h
  | monitorLeave watching => simp [backlog, events, watching, Processes]
  | monitorSend halting =>
    refine ⟨?_, by simp [Processes]⟩
    simp only [backlog, events, halting, List.length_append, List.length_singleton]
    cases w.phase <;> simp <;> omega
  | monitorSendFailed halting | monitorDone waiting => simp [backlog, *, events, Processes]
  | terminateCall flag phase => simp [backlog, events, phase, gone, Processes]
  | ret phase drained hr => exact ⟨backlog_returned phase hr, by simp [Processes]⟩
  | retTerminated phase flag hr =>
    have h := backlog_returned (w := { w with terminating := false }.discardJobs) phase hr
    exact ⟨h, by simp [Processes]⟩
  | unmonitored phase | initLoop phase | initError phase | retThrew phase | close phase
  | cancelClosing phase => simp [backlog, events, phase, gone, Processes]
  | cancel phase => obtain phase | phase := phase <;> simp [backlog, events, phase, Processes]
  | @pollReady future polled closing phase => cases closing <;> simp [backlog, events, phase, Processes]
  | newPromise | fulfil | reject | callFetch | job | pollPending =>
    simp [backlog, events, Processes]

def Accepting (w : Worker) : Prop := w.rxOpen = false ∨ w.backlog ≤ 2

theorem accepting_of_done (h : w.rxOpen = false ∨ w.events = []) : w.Accepting :=
  h.imp_right backlog_le_of_events

theorem Accepting.room (h : w.Accepting) (hr : w.rxOpen = true) : w.queue.length < workerCapacity := by
  have hle := h.resolve_left (by simp [hr])
  unfold backlog at hle
  unfold workerCapacity
  omega

theorem Accepting.step (h : w.Accepting) (hs : Step w a w' o) (ha : ∀ trigger, a ≠ .push trigger) :
    w'.Accepting := by
  obtain hrx | hle := h
  · exact .inl (Bool.eq_false_iff.mpr fun hr => by simp [rxOpen_of_step hs hr] at hrx)
  · exact .inr (Nat.le_trans (backlog_step hs ha).1 hle)

theorem not_holdsToken_step (h : w.holdsToken .pod = false) (hs : Step w a w' o)
    (ha : ∀ trigger, a ≠ .push trigger) : w'.holdsToken .pod = false := by
  refine Bool.eq_false_iff.mpr fun ht => ?_
  obtain hw | hpush | ⟨-, hne⟩ := holdsToken_before hs ht
  · simp [hw] at h
  · exact ha _ hpush
  · cases hne

theorem not_holdsToken_of_done {token : Halter} (he : w.Emptied)
    (h : w.rxOpen = false ∨ w.events = []) : w.holdsToken token = false := by
  refine Bool.eq_false_iff.mpr fun ht => ?_
  have ht := holdsToken_iff.mp ht
  obtain hrx | hevents := h
  · obtain ht | ht := ht
    · simp [he hrx] at ht
    · simp [rxOpen, ht] at hrx
  · unfold events at hevents
    split at hevents
    · cases hevents
    · rename_i hphase
      obtain ht | ht := ht
      · simp [hevents] at ht
      · exact hphase _ ht

end Worker

def LocalAct.ofTask : LocalAct → Prop
  | .pod (.worker _ _) | .send _ => False
  | .pod _ => True

namespace PodTask

/-- A pod from a given state on, to which the serverless task sends as it likes. -/
def stepOpen (p : PodTask) : LocalAct → Option PodTask
  | .send trigger =>
    if p.rxOpen ∧ p.queue.length < podCapacity then some { p with queue := p.queue ++ [trigger] }
    else none
  | .pod a => (p.step a).map Prod.fst

def machine (p : PodTask) : Machine PodTask LocalAct := ⟨p, stepOpen⟩

structure Haltable (p : PodTask) : Prop where
  phase : p.phase = .receiving
  head : ∃ queue, p.queue = .halt :: queue
  slots : ∀ worker, some worker ∈ p.pod.workers → worker < p.tasks.length
  tasks : ∀ w ∈ p.tasks, ∃ task, (Worker.machine task).Reachable w

variable {p : PodTask}

structure Fair (b : p.machine.Behaviour) : Prop where
  task : b.WeaklyFair LocalAct.ofTask
  worker : ∀ n i w, (b.state n).tasks[i]? = some w → w.rxOpen = true → w.events ≠ [] →
    ∃ m, n ≤ m ∧ ∃ v, (b.state m).tasks[i]? = some v ∧
      (v.rxOpen = false ∨ ∃ a, b.act m = some (.pod (.worker i a)) ∧ v.Processes a)

/-- Each occupied slot is sent a `Halt` in its turn, no token is awaited that nobody can send, and
the `Halt` of the pod is acknowledged. -/
structure Halts (b : p.machine.Behaviour) : Prop where
  visits : ∀ pre worker rest, p.pod.workers = pre ++ some worker :: rest →
    ∃ n, (b.state n).phase = .halting (some worker :: rest) ∧ b.act n = some (.pod .send) ∧
      ∀ w, (b.state (n + 1)).tasks[worker]? = some w → w.rxOpen = true → w.holdsToken .pod = true
  awaits : ∀ n rest, (b.state n).phase ≠ .haltWaiting none rest
  acknowledges : ∃ n, (b.state n).phase = .halting [] ∧ b.act n = some (.pod .send)

section Steps

variable {s s' : PodTask} {a : LocalAct}

inductive OpenStep (s : PodTask) : LocalAct → PodTask → Prop
  | send {trigger : PodTrigger} :
      OpenStep s (.send trigger) { s with queue := s.queue ++ [trigger] }
  | pod {a : PodAct} {s' : PodTask} {o : PodOut} (h : Step s a s' o) : OpenStep s (.pod a) s'

theorem stepOpen_sound (h : s.stepOpen a = some s') : OpenStep s a s' := by
  cases a with
  | send trigger =>
    obtain ⟨-, h⟩ := Option.ite_none_right_eq_some.mp h
    cases h
    exact .send
  | pod a =>
    obtain ⟨⟨t, o⟩, hs, rfl⟩ := Option.map_eq_some_iff.mp h
    exact .pod (step_sound hs)

def Visited (p s : PodTask) : Prop :=
  match s.phase with
  | .receiving => s.pod.workers = p.pod.workers ∧ ∃ queue, s.queue = .halt :: queue
  | .halting rest => ∃ pre, p.pod.workers = pre ++ rest ∧ none ∉ pre
  | .haltWaiting slot rest => ∃ pre, p.pod.workers = pre ++ slot :: rest ∧ none ∉ pre
  | .ended => none ∉ p.pod.workers
  | .forwarding _ _ => False

theorem kept_of_open (hs : OpenStep s a s') (ha : ¬ a.ofTask) {k : Nat} {w : Worker}
    (hw : s.tasks[k]? = some w) :
    s'.phase = s.phase ∧ ∃ w', s'.tasks[k]? = some w' ∧
      (w' = w ∧ (∀ c, a ≠ .pod (.worker k c)) ∨
        ∃ c o, a = .pod (.worker k c) ∧ (∀ trigger, c ≠ .push trigger) ∧ Worker.Step w c w' o) := by
  cases hs with
  | send => exact ⟨rfl, w, hw, .inl ⟨rfl, by simp⟩⟩
  | pod hs =>
    cases hs with
    | @worker i c v v' o task runs hs =>
      refine ⟨rfl, ?_⟩
      by_cases hi : i = k
      · subst hi
        obtain rfl : v = w := Option.some.inj (task.symm.trans hw)
        refine ⟨v', List.getElem?_set_self (List.getElem?_eq_some_iff.mp task).1, .inr ?_⟩
        refine ⟨c, o, rfl, fun trigger hc => ?_, hs⟩
        subst hc
        cases runs
      · exact ⟨w, by rwa [setTask, List.getElem?_set_ne hi], .inl ⟨rfl, by simp [hi]⟩⟩
    | _ => exact absurd trivial ha

inductive HaltStep (s : PodTask) : PodPhase → LocalAct → PodTask → Prop
  | halt {queue : List PodTrigger} (head : s.queue = .halt :: queue) :
      HaltStep s .receiving (.pod .recv)
        { s with queue := queue, pod := { s.pod with workers := [] }, phase := .halting s.pod.workers }
  | haltWorker {s' : PodTask} {o : PodOut} {worker : Nat} {rest : List (Option Nat)}
      (h : Triggered { s with phase := .haltWaiting (some worker) rest } worker (.halt .pod) s' o) :
      HaltStep s (.halting (some worker :: rest)) (.pod .send) s'
  | haltEmpty {rest : List (Option Nat)} :
      HaltStep s (.halting (none :: rest)) (.pod .send) { s with phase := .haltWaiting none rest }
  | halted : HaltStep s (.halting []) (.pod .send) { s with phase := .ended, queue := [] }
  | token {worker : Nat} {rest : List (Option Nat)} :
      HaltStep s (.haltWaiting (some worker) rest) (.pod .token) { s with phase := .halting rest }

theorem haltStep_of_task (h : p.Visited s) (hs : OpenStep s a s') (ha : a.ofTask) :
    HaltStep s s.phase a s' := by
  cases hs with
  | send => exact absurd ha id
  | pod hs =>
    cases hs with
    | checkVacancies phase head | createWorker phase head | forward phase head
    | unknown phase head | hangup phase head =>
      simp [Visited, phase, head] at h
    | forwarded phase => simp [Visited, phase] at h
    | halt phase head =>
      rw [phase]
      exact .halt head
    | haltWorker phase ht =>
      rw [phase]
      exact .haltWorker ht
    | haltEmpty phase =>
      rw [phase]
      exact .haltEmpty
    | halted phase =>
      rw [phase]
      exact .halted
    | token phase =>
      rw [phase]
      exact .token
    | worker => exact absurd ha id

theorem phase_of_open (hs : OpenStep s a s') (ha : ¬ a.ofTask) : s'.phase = s.phase := by
  cases hs with
  | send => rfl
  | pod hs =>
    cases hs with
    | worker => rfl
    | _ => exact absurd trivial ha

theorem Visited.others (h : p.Visited s) (hs : OpenStep s a s') (ha : ¬ a.ofTask) :
    p.Visited s' := by
  cases hs with
  | send =>
    unfold Visited at h ⊢
    cases hp : s.phase with
    | receiving =>
      simp only [hp] at h ⊢
      obtain ⟨hslots, queue, hq⟩ := h
      exact ⟨hslots, _, by rw [hq]; rfl⟩
    | forwarding => simp [hp] at h
    | halting | haltWaiting | ended => simpa only [hp] using h
  | pod hs =>
    cases hs with
    | worker => exact h
    | _ => exact absurd trivial ha

theorem Visited.step (h : p.Visited s) (hs : OpenStep s a s') : p.Visited s' := by
  by_cases ha : a.ofTask
  · have ht := haltStep_of_task h hs ha
    unfold Visited at h
    generalize s.phase = phase at h ht
    cases ht with
    | halt head => exact ⟨[], h.1.symm ▸ rfl, by simp⟩
    | haltWorker hk => cases hk <;> exact h
    | haltEmpty => exact h
    | halted =>
      obtain ⟨pre, hpre, hnone⟩ := h
      simpa [Visited, hpre] using hnone
    | @token worker rest =>
      obtain ⟨pre, hpre, hnone⟩ := h
      exact ⟨pre ++ [some worker], by simp [hpre], by simp [hnone]⟩
  · exact h.others hs ha

theorem length_of_open (hs : OpenStep s a s') {k : Nat} (hk : k < s.tasks.length) :
    k < s'.tasks.length := by
  cases hs with
  | send => exact hk
  | pod hs =>
    obtain ⟨w', hw', -⟩ := moved_of_step hs (List.getElem?_eq_getElem hk)
    exact (List.getElem?_eq_some_iff.mp hw').1

theorem emptied_of_open (h : ∀ w ∈ s.tasks, w.Emptied) (hs : OpenStep s a s') :
    ∀ w ∈ s'.tasks, w.Emptied := by
  cases hs with
  | send => exact h
  | pod hs => exact forall_tasks_step (fun _ _ => rfl) Worker.Emptied.step h hs

end Steps

section Fairness

variable {b : p.machine.Behaviour} {n k : Nat} {w : Worker} {rest : List (Option Nat)}

theorem Haltable.visited (hp : p.Haltable) (b : p.machine.Behaviour) (n : Nat) :
    p.Visited (b.state n) := by
  refine b.invariant ?_ (fun h hs => h.step (stepOpen_sound hs)) n
  simp only [Visited, machine, hp.phase]
  exact ⟨trivial, hp.head⟩

theorem Haltable.step (hp : p.Haltable) {a : LocalAct} {phase : PodPhase} (ha : a.ofTask)
    (hact : b.act n = some a) (hphase : (b.state n).phase = phase) :
    HaltStep (b.state n) phase a (b.state (n + 1)) := by
  have hs := haltStep_of_task (hp.visited b n) (stepOpen_sound (b.step n a hact)) ha
  rwa [hphase] at hs

theorem Haltable.emptied (hp : p.Haltable) (b : p.machine.Behaviour) (n : Nat) :
    ∀ w ∈ (b.state n).tasks, w.Emptied := by
  refine b.invariant ?_ (fun h hs => emptied_of_open h (stepOpen_sound hs)) n
  intro w hw
  obtain ⟨task, as, hr⟩ := hp.tasks w hw
  exact Worker.run_invariant (fun _ => rfl) Worker.Emptied.step hr

theorem Haltable.started (hp : p.Haltable) (b : p.machine.Behaviour) (n : Nat)
    (hk : some k ∈ p.pod.workers) : ∃ w, (b.state n).tasks[k]? = some w := by
  have hlt : k < (b.state n).tasks.length :=
    b.invariant (hp.slots k hk) (fun h hs => length_of_open (stepOpen_sound hs) h) n
  exact ⟨_, List.getElem?_eq_getElem hlt⟩

theorem keep_worker {Q : Worker → Prop} {phase : PodPhase}
    (keep : ∀ {w a w' o}, Q w → Worker.Step w a w' o → (∀ trigger, a ≠ .push trigger) → Q w')
    {s s' : PodTask} {a : LocalAct} (ha : ¬ a.ofTask)
    (h : s.phase = phase ∧ ∃ w, s.tasks[k]? = some w ∧ Q w) (hs : p.machine.step s a = some s') :
    s'.phase = phase ∧ ∃ w, s'.tasks[k]? = some w ∧ Q w := by
  obtain ⟨hphase, w, hw, hQ⟩ := h
  obtain ⟨hp, w', hw', ⟨rfl, -⟩ | ⟨c, o, -, hc, hs⟩⟩ := kept_of_open (stepOpen_sound hs) ha hw
  · exact ⟨hp.trans hphase, w', hw', hQ⟩
  · exact ⟨hp.trans hphase, w', hw', keep hQ hs hc⟩

theorem Fair.drained (hf : Fair b) (hno : ∀ m, n ≤ m → ¬ b.Takes LocalAct.ofTask m)
    (hw : (b.state n).tasks[k]? = some w) :
    ∃ m, n ≤ m ∧ ∃ v, (b.state m).tasks[k]? = some v ∧ (v.rxOpen = false ∨ v.events = []) := by
  have hkeep : ∀ {m m' v}, n ≤ m → m ≤ m' → (b.state m).tasks[k]? = some v →
      ∃ v', (b.state m').tasks[k]? = some v' ∧ v'.backlog ≤ v.backlog := by
    intro m m' v hm hmm hv
    have hkept := b.persists (F := LocalAct.ofTask) (keep_worker fun hle hs hc =>
      Nat.le_trans (Worker.backlog_step hs hc).1 hle) ⟨rfl, v, hv, Nat.le_refl _⟩ hmm
      fun i hi _ => hno i (Nat.le_trans hm hi)
    exact hkept.2
  refine Machine.eventually_of_rank (fun m => ((b.state m).tasks[k]?).elim 0 Worker.backlog)
    fun m hm => ?_
  obtain ⟨v, hv, -⟩ := hkeep (Nat.le_refl n) hm hw
  by_cases hdone : v.rxOpen = false ∨ v.events = []
  · exact ⟨m, Nat.le_refl m, .inl ⟨v, hv, hdone⟩⟩
  obtain ⟨hrx, hevents⟩ := not_or.mp hdone
  obtain ⟨i, hi, u, hu, hended | ⟨c, hact, hproc⟩⟩ :=
    hf.worker m k v hv (Bool.not_eq_false _ ▸ hrx) hevents
  · exact ⟨i, hi, .inl ⟨u, hu, .inl hended⟩⟩
  obtain ⟨u', hu', hle⟩ := hkeep hm hi hv
  obtain rfl : u = u' := Option.some.inj (hu.symm.trans hu')
  obtain ⟨-, v', hv', ⟨-, hne⟩ | ⟨c', o, heq, hc, hs⟩⟩ :=
    kept_of_open (stepOpen_sound (b.step i _ hact)) (by simp [LocalAct.ofTask]) hu
  · exact absurd rfl (hne c)
  · cases heq
    refine ⟨i + 1, Nat.le_succ_of_le hi, .inr ?_⟩
    simp only [hv, hv', Option.elim_some]
    exact Nat.lt_of_lt_of_le ((Worker.backlog_step hs hc).2 hproc) hle

theorem Fair.taken (hf : Fair b) (hp : p.Haltable) {Q : Worker → Prop} {phase : PodPhase}
    (hk : some k ∈ p.pod.workers) (hphase : (b.state n).phase = phase)
    (keep : ∀ {w a w' o}, Q w → Worker.Step w a w' o → (∀ trigger, a ≠ .push trigger) → Q w')
    (done : ∀ {w : Worker}, w.Emptied → w.rxOpen = false ∨ w.events = [] → Q w)
    (enabled : ∀ {s : PodTask} {w : Worker}, s.phase = phase → s.tasks[k]? = some w → Q w →
      ∃ a : LocalAct, a.ofTask ∧ (s.stepOpen a).isSome) :
    ∃ m, n ≤ m ∧ b.Takes LocalAct.ofTask m ∧ (b.state m).phase = phase := by
  obtain ⟨w, hw⟩ := hp.started b n hk
  have hfirst : (∃ m, n ≤ m ∧ b.Takes LocalAct.ofTask m) →
      ∃ m, n ≤ m ∧ b.Takes LocalAct.ofTask m ∧ (b.state m).phase = phase := fun hex => by
    obtain ⟨m, hm, ht, hkept⟩ := Machine.Behaviour.exists_first
      (keep_worker (Q := fun _ => True) fun _ _ _ => trivial) ⟨hphase, w, hw, trivial⟩ hex
    exact ⟨m, hm, ht, hkept.1⟩
  by_cases hex : ∃ m, n ≤ m ∧ b.Takes LocalAct.ofTask m
  · exact hfirst hex
  obtain ⟨m, hm, v, hv, hdone⟩ := hf.drained (fun m hm ht => hex ⟨m, hm, ht⟩) hw
  have hvQ := done (hp.emptied b m v (List.mem_of_getElem? hv)) hdone
  have hphase := (b.persists (F := LocalAct.ofTask)
    (keep_worker (Q := fun _ => True) fun _ _ _ => trivial) ⟨hphase, w, hw, trivial⟩ hm
    fun i hi _ ht => hex ⟨i, hi, ht⟩).1
  obtain ⟨i, hi, ht, -⟩ := hf.task.taken (keep_worker keep)
    (fun ⟨hphase, w, hw, hQ⟩ => enabled hphase hw hQ) ⟨hphase, v, hv, hvQ⟩
  exact hfirst ⟨i, Nat.le_trans hm hi, ht⟩

theorem Fair.sent (hf : Fair b) (hp : p.Haltable) (hk : some k ∈ p.pod.workers)
    (hphase : (b.state n).phase = .halting (some k :: rest)) :
    ∃ m, n ≤ m ∧ (b.state m).phase = .halting (some k :: rest) ∧ b.act m = some (.pod .send) ∧
      (b.state (m + 1)).phase = .haltWaiting (some k) rest ∧
      ∀ w, (b.state (m + 1)).tasks[k]? = some w → w.rxOpen = true → w.holdsToken .pod = true := by
  obtain ⟨m, hm, ⟨a, ha, hact⟩, hphase⟩ := hf.taken hp hk hphase Worker.Accepting.step
    (fun _ hdone => Worker.accepting_of_done hdone) fun {s w} hphase hw hQ => by
      refine ⟨.pod .send, trivial, ?_⟩
      simp only [stepOpen, step, hphase, trigger, hw]
      cases hrx : w.rxOpen with
      | false => simp
      | true => simp [Worker.step, hrx, hQ.room hrx]
  have hs := hp.step ha hact hphase
  refine ⟨m, hm, hphase, ?_⟩
  generalize b.state (m + 1) = s' at hs ⊢
  cases hs with
  | haltWorker ht =>
    refine ⟨hact, ?_⟩
    cases ht with
    | @sent w task rx room =>
      refine ⟨rfl, fun v hv _ => ?_⟩
      obtain ⟨-, rfl⟩ | ⟨hne, -⟩ := List.getElem?_set_cases hv
      · simp [Worker.holdsToken]
      · exact absurd rfl hne
    | @dropped w task rx =>
      refine ⟨rfl, fun v hv hr => ?_⟩
      obtain rfl : w = v := Option.some.inj (task.symm.trans hv)
      simp [rx] at hr

theorem Fair.resolved (hf : Fair b) (hp : p.Haltable) (hk : some k ∈ p.pod.workers)
    (hphase : (b.state n).phase = .haltWaiting (some k) rest) :
    ∃ m, (b.state m).phase = .halting rest := by
  obtain ⟨m, hm, ⟨a, ha, hact⟩, hphase⟩ := hf.taken hp hk hphase Worker.not_holdsToken_step
    Worker.not_holdsToken_of_done fun hphase hw hQ =>
      ⟨.pod .token, trivial, by simp [stepOpen, step, hphase, hw, hQ]⟩
  have hs := hp.step ha hact hphase
  refine ⟨m + 1, ?_⟩
  generalize b.state (m + 1) = s' at hs ⊢
  cases hs with
  | token => rfl

theorem Fair.started (hf : Fair b) (hp : p.Haltable) :
    ∃ n, (b.state n).phase = .halting p.pod.workers := by
  have hhead : ∀ {s}, s.phase = .receiving → p.Visited s →
      s.pod.workers = p.pod.workers ∧ ∃ queue, s.queue = .halt :: queue := fun hphase hv => by
    simpa only [Visited, hphase] using hv
  obtain ⟨m, -, ⟨a, ha, hact⟩, hphase, hv⟩ := hf.task.taken
    (P := fun s => s.phase = .receiving ∧ p.Visited s)
    (fun ha h hs =>
      ⟨(phase_of_open (stepOpen_sound hs) ha).trans h.1, h.2.others (stepOpen_sound hs) ha⟩)
    (fun ⟨hphase, hv⟩ => by
      obtain ⟨-, queue, hq⟩ := hhead hphase hv
      exact ⟨.pod .recv, trivial, by simp [machine, stepOpen, step, PodTask.recv, hphase, hq]⟩)
    ⟨b.start ▸ hp.phase, hp.visited b 0⟩
  obtain ⟨hslots, -⟩ := hhead hphase hv
  have hs := hp.step ha hact hphase
  refine ⟨m + 1, ?_⟩
  generalize b.state (m + 1) = s' at hs ⊢
  cases hs with
  | halt => exact congrArg _ hslots

theorem Fair.acknowledges (hf : Fair b) (hp : p.Haltable) (hphase : (b.state n).phase = .halting []) :
    ∃ m, (b.state m).phase = .halting [] ∧ b.act m = some (.pod .send) := by
  obtain ⟨m, -, ⟨a, ha, hact⟩, hphase⟩ := hf.task.taken (P := fun s => s.phase = .halting [])
    (fun ha h hs => (phase_of_open (stepOpen_sound hs) ha).trans h)
    (fun hphase => ⟨.pod .send, trivial, by simp [machine, stepOpen, step, hphase]⟩) hphase
  have hs := hp.step ha hact hphase
  refine ⟨m, hphase, ?_⟩
  generalize b.state (m + 1) = s' at hs
  cases hs with
  | halted => exact hact

theorem Fair.visits (hf : Fair b) (hp : p.Haltable) (hslots : ∀ slot ∈ p.pod.workers, slot.isSome)
    {pre : List (Option Nat)} (hpre : p.pod.workers = pre ++ rest) :
    ∃ n, (b.state n).phase = .halting rest := by
  induction pre using List.reverseRecOn generalizing rest with
  | nil =>
    obtain rfl : p.pod.workers = rest := hpre
    exact hf.started hp
  | append_singleton pre slot ih =>
    have hcons : p.pod.workers = pre ++ slot :: rest := by simpa using hpre
    obtain ⟨n, hphase⟩ := ih hcons
    have hmem : slot ∈ p.pod.workers := by simp [hpre]
    obtain ⟨worker, rfl⟩ := Option.isSome_iff_exists.mp (hslots slot hmem)
    obtain ⟨m, -, -, -, hwait, -⟩ := hf.sent hp hmem hphase
    exact hf.resolved hp hmem hwait

end Fairness

variable {b : p.machine.Behaviour}

/-- The halt of a pod comes to its end exactly when none of its slots is empty. -/
theorem halts_iff (hp : p.Haltable) (hf : Fair b) :
    Halts b ↔ ∀ slot ∈ p.pod.workers, slot.isSome := by
  have hnone : none ∉ p.pod.workers ↔ ∀ slot ∈ p.pod.workers, slot.isSome :=
    ⟨fun h slot hs => Option.isSome_iff_ne_none.mpr fun he => h (he ▸ hs), fun h hs => by
      simpa using h none hs⟩
  constructor
  · intro h
    obtain ⟨n, hphase, -⟩ := h.acknowledges
    have hv := hp.visited b n
    simp only [Visited, hphase] at hv
    obtain ⟨pre, hpre, hno⟩ := hv
    exact hnone.mp (by simpa [hpre] using hno)
  · intro hslots
    refine ⟨fun pre worker rest hpre => ?_, fun n rest hphase => ?_, ?_⟩
    · obtain ⟨n, hphase⟩ := hf.visits hp hslots hpre
      obtain ⟨m, -, hphase, hact, -, hheld⟩ := hf.sent hp (by simp [hpre]) hphase
      exact ⟨m, hphase, hact, hheld⟩
    · have hv := hp.visited b n
      simp only [Visited, hphase] at hv
      obtain ⟨pre, hpre, -⟩ := hv
      exact hnone.mpr hslots (by simp [hpre])
    · obtain ⟨n, hphase⟩ := hf.visits hp hslots (List.append_nil _).symm
      exact hf.acknowledges hp hphase

theorem ofRun_fair {as : List LocalAct} {s : PodTask} (h : p.machine.Run as s)
    (stuck : ∀ a : LocalAct, a.ofTask → s.stepOpen a = none)
    (ended : ∀ w ∈ s.tasks, w.rxOpen = false)
    (started : ∀ n ≤ as.length, ∀ t ∈ p.machine.exec p (as.take n),
      t.tasks.length ≤ s.tasks.length) :
    Fair (Machine.Behaviour.ofRun h) where
  task := Machine.Behaviour.ofRun_weaklyFair h stuck
  worker n i w hw _ _ := by
    have hle : ((Machine.Behaviour.ofRun h).state n).tasks.length ≤ s.tasks.length :=
      Machine.Behaviour.ofRun_invariant (P := fun t : PodTask => t.tasks.length ≤ s.tasks.length) h
        started n
    have hlt : i < s.tasks.length := Nat.lt_of_lt_of_le (List.getElem?_eq_some_iff.mp hw).1 hle
    refine ⟨max n as.length, Nat.le_max_left _ _, s.tasks[i], ?_, .inl (ended _ (List.getElem_mem hlt))⟩
    rw [Machine.Behaviour.ofRun_state h (Nat.le_max_right _ _)]
    exact List.getElem?_eq_getElem hlt

def twoSlots : PodTask where
  pod := { workers := [some 0, some 1], capacity := 2, vacancies := [] }
  queue := [.halt]
  tasks := [{ task := ⟨"", 0⟩, phase := .parked, fetch := true },
    { task := ⟨"", 0⟩, phase := .parked, fetch := true, queue := [.http 0] }]

theorem twoSlots_haltable : twoSlots.Haltable where
  phase := rfl
  head := ⟨[], rfl⟩
  slots worker hw := by
    simp only [twoSlots, List.mem_cons, Option.some.injEq, List.not_mem_nil, or_false] at hw
    obtain rfl | rfl := hw <;> decide
  tasks w hw := by
    simp only [twoSlots, List.mem_cons, List.not_mem_nil, or_false] at hw
    obtain rfl | rfl := hw
    · exact ⟨_, [.init {}], rfl⟩
    · exact ⟨_, [.init {}, .push (.http 0)], rfl⟩

theorem halts_iff_twoSlots : ∃ b : twoSlots.machine.Behaviour,
    Halts b ↔ ∀ slot ∈ twoSlots.pod.workers, slot.isSome := by
  have hrun : twoSlots.machine.Run [.pod .recv, .pod .send, .pod (.worker 1 .recv),
    .pod (.worker 0 .recv), .pod (.worker 1 .resume), .pod (.worker 1 (.ret .value)),
    .pod (.worker 0 .resume), .pod .token, .pod .send, .pod (.worker 1 .recv),
    .pod (.worker 1 .resume), .pod .token, .pod .send] _ := rfl
  refine ⟨_, halts_iff twoSlots_haltable (ofRun_fair hrun ?_ (by decide) (by decide +kernel))⟩
  rintro (trigger | (_ | _ | _ | _ | _)) ha <;> first | rfl | exact absurd ha id

def emptySlot : PodTask where
  pod := { workers := [none], capacity := 1, vacancies := [0] }
  queue := [.halt]
  tasks := [{ task := ⟨"", 0⟩, phase := .closed }]

theorem emptySlot_haltable : emptySlot.Haltable where
  phase := rfl
  head := ⟨[], rfl⟩
  slots worker hw := by simp [emptySlot] at hw
  tasks w hw := by
    obtain rfl := List.mem_singleton.mp hw
    exact ⟨_, [.unmonitored], rfl⟩

theorem halt_stuck : ∃ p : PodTask, (Pod.allocator 1).Run [.create 0, .remove 0] p.pod ∧
    p.Haltable ∧ ∃ b : p.machine.Behaviour, Fair b ∧ ¬ Halts b := by
  refine ⟨emptySlot, rfl, emptySlot_haltable, ?_⟩
  have hrun : emptySlot.machine.Run [.pod .recv, .pod .send] _ := rfl
  refine ⟨Machine.Behaviour.ofRun hrun, ofRun_fair hrun ?_ (by decide) (by decide), fun h => ?_⟩
  · rintro (trigger | (_ | _ | _ | _ | _)) ha <;> first | rfl | exact absurd ha id
  · exact h.awaits 2 [] rfl

end PodTask

end Serverlessd
