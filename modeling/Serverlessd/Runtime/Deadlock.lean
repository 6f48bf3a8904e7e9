import Serverlessd.Lib.WaitsFor
import Serverlessd.Runtime.Threads

/-! Who waits for whom among the tasks of the runtime, when their queues are full and replies
are awaited in the middle of a receive loop. -/

namespace Serverlessd

inductive Task
  | serverless
  | pod (idx : Nat)
  | worker (idx worker : Nat)
  | monitor (idx : Nat)
  | monitorWorker (idx worker : Nat)
  deriving DecidableEq

/-- The task of the worker itself goes on: JavaScript ends or returns, or the task leaves one
of its await points.  What a script does meanwhile and the polls of `fetch()` do not count. -/
def WorkerAct.proceeds : WorkerAct → Bool
  | .unmonitored | .init _ | .recv | .job | .resume | .ret _ | .retTerminated _ | .close | .cancel => true
  | _ => false

def SystemAct.task : SystemAct → Option Task
  | .runtime (.recv _) | .runtime .send => some .serverless
  | .runtime (.pod idx (.worker worker a)) =>
    if a.monitors then some (.monitorWorker idx worker)
    else if a.proceeds then some (.worker idx worker)
    else none
  | .runtime (.pod idx _) => some (.pod idx)
  | .runtime _ => none
  | .startMonitoring idx worker => some (.worker idx worker)
  | .monitorRecv idx | .monitorHangup idx => some (.monitor idx)

namespace System

structure Hosts (s : System) (idx worker : Nat) (t : PodThread) (p : PodTask) (w : Worker) :
    Prop where
  thread : s.threads[idx]? = some t
  get : s.runtime.pods[idx]? = some p
  task : p.tasks[worker]? = some w

def Enabled (s : System) (t : Task) : Prop := ∃ a : SystemAct, a.task = some t ∧ (s.step a).isSome

def Awaits (s : System) : Task → Prop
  | .serverless =>
    s.runtime.phase.sends.isSome ∨ s.runtime.phase.awaits.isSome ∨ s.runtime.phase = .joining
  | .pod idx =>
    ∃ p, s.runtime.pods[idx]? = some p ∧ p.phase ≠ .receiving ∧ p.rxOpen = true
  | .worker idx worker => ∃ t p w, s.Hosts idx worker t p w ∧ w.phase = .starting
  | .monitor _ => False
  | .monitorWorker idx worker => ∃ t p w, s.Hosts idx worker t p w ∧ t.monitoring = true ∧
    worker ∈ t.monitored ∧ (w.monitor = .halting ∨ w.monitor = .waiting)

def Blocked (s : System) (t : Task) : Prop := s.Awaits t ∧ ¬ s.Enabled t

/-- Who must act next: the receiver of a full queue, the one with the sender of a reply, the
thread that is joined, or the task that has the thread. -/
inductive WaitsFor (s : System) : Task → Task → Prop
  | podQueue {idx : Nat} {trigger : PodTrigger} {next : ServerlessPhase} {p : PodTask}
      (sends : s.runtime.phase.sends = some (idx, trigger, next))
      (get : s.runtime.pods[idx]? = some p) (rx : p.rxOpen = true)
      (full : podCapacity ≤ p.queue.length) : WaitsFor s .serverless (.pod idx)
  | podReply {idx : Nat} {p : PodTask} (awaits : s.runtime.phase.awaits = some idx)
      (get : s.runtime.pods[idx]? = some p) (rx : p.rxOpen = true) :
      WaitsFor s .serverless (.pod idx)
  | podEnd {idx : Nat} {p : PodTask} (phase : s.runtime.phase = .joining)
      (get : s.runtime.pods[idx]? = some p) (rx : p.rxOpen = true) :
      WaitsFor s .serverless (.pod idx)
  | workerQueue {idx worker : Nat} {t : PodThread} {p : PodTask} {w : Worker}
      (hosts : s.Hosts idx worker t p w)
      (phase : (∃ trigger, p.phase = .forwarding worker trigger) ∨
        ∃ rest, p.phase = .halting (some worker :: rest))
      (rx : w.rxOpen = true) (full : workerCapacity ≤ w.queue.length) :
      WaitsFor s (.pod idx) (.worker idx worker)
  | workerToken {idx worker : Nat} {t : PodThread} {p : PodTask} {w : Worker}
      {rest : List (Option Nat)} (hosts : s.Hosts idx worker t p w)
      (phase : p.phase = .haltWaiting (some worker) rest) (token : w.holdsToken .pod = true) :
      WaitsFor s (.pod idx) (.worker idx worker)
  | ownToken {idx : Nat} {p : PodTask} {rest : List (Option Nat)}
      (get : s.runtime.pods[idx]? = some p) (phase : p.phase = .haltWaiting none rest) :
      WaitsFor s (.pod idx) (.pod idx)
  | podThread {idx worker : Nat} {t : PodThread} (thread : s.threads[idx]? = some t)
      (running : t.running = some worker) : WaitsFor s (.pod idx) (.worker idx worker)
  | workerThread {idx worker other : Nat} {t : PodThread} {p : PodTask} {w : Worker}
      (hosts : s.Hosts idx worker t p w) (phase : w.phase ≠ .closed)
      (running : t.running = some other) (ne : other ≠ worker) :
      WaitsFor s (.worker idx worker) (.worker idx other)
  | spawnQueue {idx worker : Nat} {t : PodThread} {p : PodTask} {w : Worker}
      (hosts : s.Hosts idx worker t p w) (phase : w.phase = .starting)
      (unsent : worker ∉ t.queue ∧ worker ∉ t.monitored) (monitoring : t.monitoring = true)
      (full : monitorCapacity ≤ t.queue.length) : WaitsFor s (.worker idx worker) (.monitor idx)
  | spawnReply {idx worker : Nat} {t : PodThread} {p : PodTask} {w : Worker}
      (hosts : s.Hosts idx worker t p w) (phase : w.phase = .starting) (sent : worker ∈ t.queue)
      (monitoring : t.monitoring = true) : WaitsFor s (.worker idx worker) (.monitor idx)
  | monitorQueue {idx worker : Nat} {t : PodThread} {p : PodTask} {w : Worker}
      (hosts : s.Hosts idx worker t p w) (monitor : w.monitor = .halting) (rx : w.rxOpen = true)
      (full : workerCapacity ≤ w.queue.length) :
      WaitsFor s (.monitorWorker idx worker) (.worker idx worker)
  | monitorToken {idx worker : Nat} {t : PodThread} {p : PodTask} {w : Worker}
      (hosts : s.Hosts idx worker t p w) (monitor : w.monitor = .waiting)
      (token : w.holdsToken .monitor = true) :
      WaitsFor s (.monitorWorker idx worker) (.worker idx worker)

/-- Those who wait are above those they wait for; a worker that has the thread is below the
others of its pod. -/
def rank (s : System) : Task → Nat
  | .serverless => 4
  | .pod _ | .monitorWorker _ _ => 3
  | .worker idx worker => if (s.threads[idx]?).any (·.running = some worker) then 1 else 2
  | .monitor _ => 0

def Pending (s : System) : Task → Prop
  | .pod idx =>
    ∃ p, s.runtime.pods[idx]? = some p ∧ p.rxOpen = true ∧ (p.queue ≠ [] ∨ p.phase ≠ .receiving)
  | .worker idx worker => ∃ t p w, s.Hosts idx worker t p w ∧
    (t.running = some worker ∨ w.phase = .starting ∨ w.queue ≠ [])
  | .monitor idx => ∃ t, s.threads[idx]? = some t ∧ t.monitoring = true ∧ t.queue ≠ []
  | t => s.Awaits t

variable {s : System} {t : PodThread} {p : PodTask} {w : Worker} {idx worker : Nat}
variable {c : Config} {as : List SystemAct}

theorem stepPod_isSome {b : PodAct} (thread : s.threads[idx]? = some t)
    (get : s.runtime.pods[idx]? = some p) (allowed : t.allows b = true)
    (turn : ((t.localSet p).step (.pod b)).isSome)
    (hb : b ≠ .hangup) : (s.stepPod idx b).isSome := by
  obtain ⟨l, hl⟩ := Option.isSome_iff_exists.mp turn
  obtain ⟨o, hstep⟩ := LocalSet.step_pod hl
  rw [PodThread.localSet_pod] at hstep
  have hr : s.runtime.step (.pod idx b) = some ((s.runtime.setPod idx l.pod).emit idx o) := by
    cases b with
    | hangup => exact absurd rfl hb
    | _ => simp [Runtime.step, get, hstep, Runtime.setPod]
  simp [stepPod, thread, get, allowed, hl, hr]

theorem enabled_pod {b : PodAct} (thread : s.threads[idx]? = some t)
    (get : s.runtime.pods[idx]? = some p) (turn : t.running = none)
    (hb : b = .recv ∨ b = .send ∨ b = .token) (h : (p.step b).isSome) : s.Enabled (.pod idx) := by
  refine ⟨.runtime (.pod idx b), ?_, stepPod_isSome thread get ?_ ?_ ?_⟩
  · obtain rfl | rfl | rfl := hb <;> rfl
  · obtain rfl | rfl | rfl := hb <;> rfl
  · obtain rfl | rfl | rfl := hb <;> simpa [LocalSet.step, turn] using h
  · obtain rfl | rfl | rfl := hb <;> simp

theorem podStep_isSome (task : p.tasks[worker]? = some w) {b : WorkerAct} (runs : p.runs b = true)
    (h : (w.step b).isSome) : (p.step (.worker worker b)).isSome := by
  simpa [PodTask.step, task, runs] using h

theorem enabled_worker {b : WorkerAct} (hosts : s.Hosts idx worker t p w)
    (turn : t.running = none ∨ t.running = some worker) (hb : b.proceeds = true)
    (allowed : t.allows (.worker worker b) = true) (runs : p.runs b = true)
    (h : (w.step b).isSome) : s.Enabled (.worker idx worker) := by
  have hm : b.monitors = false := by cases b <;> first | rfl | cases hb
  obtain ⟨⟨p', o⟩, hstep⟩ := Option.isSome_iff_exists.mp (podStep_isSome hosts.task runs h)
  refine ⟨.runtime (.pod idx (.worker worker b)), by simp [SystemAct.task, hm, hb],
    stepPod_isSome hosts.thread hosts.get allowed ?_ (by simp)⟩
  simp [LocalSet.step, LocalSet.work, hm, turn, hosts.task, hstep]

theorem enabled_monitorWorker {b : WorkerAct} (hosts : s.Hosts idx worker t p w)
    (monitoring : t.monitoring = true) (monitored : worker ∈ t.monitored)
    (hb : b = .monitorSend ∨ b = .monitorDone) (h : (w.step b).isSome) :
    s.Enabled (.monitorWorker idx worker) := by
  have hm : b.monitors = true := by obtain rfl | rfl := hb <;> rfl
  have hruns : p.runs b = true := by obtain rfl | rfl := hb <;> rfl
  have hallows : t.allows (.worker worker b) = true := by
    obtain rfl | rfl := hb <;> simp [PodThread.allows, monitoring, monitored]
  have hstep := podStep_isSome hosts.task hruns h
  refine ⟨.runtime (.pod idx (.worker worker b)), by simp [SystemAct.task, hm],
    stepPod_isSome hosts.thread hosts.get hallows ?_ (by simp)⟩
  simpa [LocalSet.step, hm] using hstep

theorem enabled_of_working (hosts : s.Hosts idx worker t p w)
    (turn : t.running = none ∨ t.running = some worker) (rx : p.rxOpen = true) (h : w.Working) :
    s.Enabled (.worker idx worker) := by
  obtain hjs | ⟨hp, hf⟩ := h
  · by_cases hjobs : w.isolate.jobs = []
    · cases hp : w.phase with
      | starting | parked | closing | closed => simp [Worker.inJs, hp] at hjs
      | calling reply =>
        exact enabled_worker (b := .ret .threw) hosts turn rfl rfl rx (by simp [Worker.step, hp])
      | checkpoint | draining | polling =>
        refine enabled_worker (b := .resume) hosts turn rfl rfl rx ?_
        simp [Worker.step, hjobs, Worker.resumed, hp]
    · obtain ⟨⟨ptr, value⟩, jobs, hjobs⟩ := List.exists_cons_of_ne_nil hjobs
      exact enabled_worker (b := .job) hosts turn rfl rfl rx (by simp [Worker.step, hjs, hjobs])
  · exact enabled_worker (b := .close) hosts turn rfl rfl rx (by simp [Worker.step, hp, hf])

theorem trigger_isSome (task : p.tasks[worker]? = some w)
    (h : w.rxOpen = true → w.queue.length < workerCapacity) (trigger : WorkerTrigger) :
    (p.trigger worker trigger).isSome := by
  cases hr : w.rxOpen with
  | true => simp [PodTask.trigger, task, hr, Worker.step, h hr]
  | false => simp [PodTask.trigger, task, hr]

theorem recv_isSome (hslots : p.Slots) (phase : p.phase = .receiving) (queue : p.queue ≠ []) :
    (p.step .recv).isSome := by
  obtain ⟨event, rest, heq⟩ := List.exists_cons_of_ne_nil queue
  simp only [PodTask.step, phase, heq]
  cases event with
  | checkVacancies | halt => rfl
  | createWorker task =>
    simp [PodTask.recv, Pod.createWorker_of_no_vacancies hslots.vacancies]
  | toWorker id trigger =>
    simp only [PodTask.recv]
    split <;> rfl

def Progress (s : System) (t : Task) : Prop := s.Enabled t ∨ ∃ u, s.WaitsFor t u

theorem progress_send (thread : s.threads[idx]? = some t) (get : s.runtime.pods[idx]? = some p)
    (turn : t.running = none) (task : p.tasks[worker]? = some w)
    (phase : (∃ trigger, p.phase = .forwarding worker trigger) ∨
      ∃ rest, p.phase = .halting (some worker :: rest)) : s.Progress (.pod idx) := by
  have hosts : s.Hosts idx worker t p w := ⟨thread, get, task⟩
  by_cases hfull : w.rxOpen = true ∧ workerCapacity ≤ w.queue.length
  · exact .inr ⟨_, .workerQueue hosts phase hfull.1 hfull.2⟩
  · have hroom : w.rxOpen = true → w.queue.length < workerCapacity :=
      fun hr => Nat.not_le.mp fun hle => hfull ⟨hr, hle⟩
    refine .inl (enabled_pod (b := .send) thread get turn (by simp) ?_)
    obtain ⟨trigger, hp⟩ | ⟨rest, hp⟩ := phase
    · have hsome := trigger_isSome (p := { p with phase := .receiving }) task hroom trigger
      simpa [PodTask.step, hp] using hsome
    · have hsome := trigger_isSome (p := { p with phase := .haltWaiting (some worker) rest }) task
        hroom (.halt .pod)
      simpa [PodTask.step, hp] using hsome

theorem Threaded.thread (h : s.Threaded) (get : s.runtime.pods[idx]? = some p) :
    ∃ t, s.threads[idx]? = some t := by
  have hlt := (List.getElem?_eq_some_iff.mp get).1
  exact ⟨_, List.getElem?_eq_getElem (h.length ▸ hlt)⟩

theorem Threaded.not_ownToken (h : s.Threaded) (get : s.runtime.pods[idx]? = some p)
    {rest : List (Option Nat)} : p.phase ≠ .haltWaiting none rest := by
  intro hp
  obtain ⟨t, thread⟩ := h.thread get
  obtain ⟨k, hk⟩ := (h.scheduled idx t p thread get).halting.waits_for hp
  cases hk

theorem Threaded.progress_pod (h : s.Threaded) (get : s.runtime.pods[idx]? = some p)
    (rx : p.rxOpen = true) (busy : p.queue ≠ [] ∨ p.phase ≠ .receiving) : s.Progress (.pod idx) := by
  obtain ⟨t, thread⟩ := h.thread get
  have hs := h.scheduled idx t p thread get
  have hhalting : p.Halting := hs.halting
  cases turn : t.running with
  | some worker => exact .inr ⟨_, .podThread thread turn⟩
  | none =>
    cases hp : p.phase with
    | receiving =>
      have hrecv := recv_isSome hs.slots hp (busy.resolve_right (absurd hp))
      exact .inl (enabled_pod thread get turn (.inl rfl) hrecv)
    | forwarding worker trigger =>
      have hlt := hs.forwarding worker trigger hp
      exact progress_send thread get turn (List.getElem?_eq_getElem hlt) (.inl ⟨trigger, hp⟩)
    | halting rest =>
      match rest with
      | [] | none :: _ =>
        exact .inl (enabled_pod thread get turn (.inr (.inl rfl)) (by simp [PodTask.step, hp]))
      | some worker :: rest =>
        have hlt := hhalting.head_lt hp
        exact progress_send thread get turn (List.getElem?_eq_getElem hlt) (.inr ⟨rest, hp⟩)
    | haltWaiting slot rest =>
      obtain ⟨k, rfl⟩ := hhalting.waits_for hp
      by_cases htoken : ∃ w, p.tasks[k]? = some w ∧ w.holdsToken .pod = true
      · obtain ⟨w, task, htoken⟩ := htoken
        exact .inr ⟨_, .workerToken ⟨thread, get, task⟩ hp htoken⟩
      · refine .inl (enabled_pod (b := .token) thread get turn (by simp) ?_)
        have hall : (p.tasks[k]?).all (fun w => !w.holdsToken .pod) = true := by
          cases hw : p.tasks[k]? with
          | none => rfl
          | some w => simpa using fun hc => htoken ⟨w, hw, hc⟩
        simp [PodTask.step, hp, hall]
    | ended => simp [PodTask.rxOpen, hp] at rx

theorem progress_starting (hosts : s.Hosts idx worker t p w) (turn : t.running = none)
    (phase : w.phase = .starting) : s.Progress (.worker idx worker) := by
  cases rx : p.rxOpen with
  | false =>
    refine .inl (enabled_worker (b := .cancel) hosts (.inl turn) rfl rfl ?_ ?_)
    · simp [PodTask.runs, rx]
    · simp [Worker.step, Worker.awaiting, phase]
  | true =>
    by_cases hmon : worker ∈ t.monitored
    · refine .inl (enabled_worker (b := .init {}) hosts (.inl turn) rfl ?_ rx ?_)
      · simpa [PodThread.allows] using hmon
      · simp [Worker.step, phase, createTaskInit, InitAnswers.terminates, InitAnswers.executions]
    · cases monitoring : t.monitoring with
      | false =>
        refine .inl (enabled_worker (b := .unmonitored) hosts (.inl turn) rfl ?_ rx ?_)
        · simp [PodThread.allows, monitoring, hmon]
        · simp [Worker.step, phase]
      | true =>
        by_cases hqueue : worker ∈ t.queue
        · exact .inr ⟨_, .spawnReply hosts phase hqueue monitoring⟩
        · by_cases hfull : monitorCapacity ≤ t.queue.length
          · exact .inr ⟨_, .spawnQueue hosts phase ⟨hqueue, hmon⟩ monitoring hfull⟩
          · refine .inl ⟨.startMonitoring idx worker, rfl, ?_⟩
            simp [step, startMonitoring, hosts.thread, hosts.get, hosts.task, rx, turn, phase,
              monitoring, hqueue, hmon, Nat.not_le.mp hfull]

theorem Threaded.progress_worker (h : s.Threaded) (hosts : s.Hosts idx worker t p w)
    (pending : t.running = some worker ∨ w.phase = .starting ∨ w.queue ≠ []) :
    s.Progress (.worker idx worker) := by
  have hs := h.scheduled idx t p hosts.thread hosts.get
  have hopen : w.phase = .starting ∨ w.queue ≠ [] → w.rxOpen = true := by
    rintro (hp | hq)
    · simp [Worker.rxOpen, hp]
    · by_contra hr
      exact hq (hs.emptied w (List.mem_of_getElem? hosts.task) (Bool.not_eq_true _ ▸ hr))
  cases turn : t.running with
  | some other =>
    by_cases hne : other = worker
    · subst hne
      obtain ⟨rx, v, hv, hwork⟩ := hs.running other turn
      obtain rfl := Option.some.inj (hv.symm.trans hosts.task)
      exact .inl (enabled_of_working hosts (.inr turn) rx hwork)
    · have hrx := hopen (pending.resolve_left (by simpa [turn] using hne))
      refine .inr ⟨_, .workerThread hosts (fun hp => ?_) turn hne⟩
      simp [Worker.rxOpen, hp] at hrx
  | none =>
    have hpending := pending.resolve_left (by simp [turn])
    have hrx := hopen hpending
    obtain hp | hp | hp | hp := hs.awaiting worker w hosts.task (by simp [turn])
    · exact progress_starting hosts turn hp
    · obtain ⟨event, queue, hq⟩ := List.exists_cons_of_ne_nil (hpending.resolve_left (by simp [hp]))
      cases rx : p.rxOpen with
      | true =>
        refine .inl (enabled_worker (b := .recv) hosts (.inl turn) rfl rfl rx ?_)
        simp [Worker.step, hp, hq]
      | false =>
        refine .inl (enabled_worker (b := .cancel) hosts (.inl turn) rfl rfl ?_ ?_)
        · simp [PodTask.runs, rx]
        · simp [Worker.step, Worker.awaiting, hp]
    · simp [Worker.rxOpen, hp] at hrx
    · simp [Worker.rxOpen, hp] at hrx

theorem progress_monitor (thread : s.threads[idx]? = some t) (monitoring : t.monitoring = true)
    (queue : t.queue ≠ []) : s.Progress (.monitor idx) := by
  obtain ⟨worker, rest, hq⟩ := List.exists_cons_of_ne_nil queue
  exact .inl ⟨.monitorRecv idx, rfl, by simp [step, monitorRecv, thread, monitoring, hq]⟩

theorem progress_monitorWorker (hosts : s.Hosts idx worker t p w) (monitoring : t.monitoring = true)
    (monitored : worker ∈ t.monitored) (monitor : w.monitor = .halting ∨ w.monitor = .waiting) :
    s.Progress (.monitorWorker idx worker) := by
  obtain hm | hm := monitor
  · by_cases hfull : w.rxOpen = true ∧ workerCapacity ≤ w.queue.length
    · exact .inr ⟨_, .monitorQueue hosts hm hfull.1 hfull.2⟩
    · refine .inl (enabled_monitorWorker hosts monitoring monitored (.inl rfl) ?_)
      cases hr : w.rxOpen with
      | true => simp [Worker.step, hm, hr, Nat.not_le.mp fun hle => hfull ⟨hr, hle⟩]
      | false => simp [Worker.step, hm, hr]
  · cases htoken : w.holdsToken .monitor with
    | true => exact .inr ⟨_, .monitorToken hosts hm htoken⟩
    | false =>
      refine .inl (enabled_monitorWorker hosts monitoring monitored (.inr rfl) ?_)
      simp [Worker.step, hm, htoken]

theorem exhausted_of_sends {r : Runtime} {trigger : PodTrigger} {next : ServerlessPhase}
    (h : r.phase.sends = some (idx, trigger, next)) :
    r.exhausted.isSome ∨ r.phase.chosen = some idx := by
  unfold Runtime.exhausted
  cases hp : r.phase <;> rw [hp] at h <;> cases h <;>
    first | exact .inl rfl | exact .inr rfl

theorem progress_serverless (h : s.runtime.Owed) (awaits : s.Awaits .serverless) :
    s.Progress .serverless := by
  have hsend : s.runtime.stepSend.isSome → s.Progress .serverless := fun hs =>
    .inl ⟨.runtime .send, rfl, by simpa [step, Runtime.step] using hs⟩
  by_cases hs : ∃ idx trigger next, s.runtime.phase.sends = some (idx, trigger, next)
  · obtain ⟨idx, trigger, next, hs⟩ := hs
    cases get : s.runtime.pods[idx]? with
    | none =>
      have hexhausted := (exhausted_of_sends hs).resolve_right fun hc =>
        absurd (h.chosen idx hc) (Nat.not_lt.mpr (List.getElem?_eq_none_iff.mp get))
      exact hsend (by simpa [Runtime.stepSend, hs, get] using hexhausted)
    | some p =>
      by_cases hfull : p.rxOpen = true ∧ podCapacity ≤ p.queue.length
      · exact .inr ⟨_, .podQueue hs get hfull.1 hfull.2⟩
      · refine hsend ?_
        cases hr : p.rxOpen with
        | true =>
          have hroom := Nat.not_le.mp fun hle => hfull ⟨hr, hle⟩
          simp [Runtime.stepSend, hs, get, hr, hroom]
        | false => simp [Runtime.stepSend, hs, get, hr]
  · have hs : s.runtime.phase.sends = none :=
      Option.eq_none_iff_forall_ne_some.mpr fun _ hc => hs ⟨_, _, _, hc⟩
    cases ha : s.runtime.phase.awaits with
    | some idx =>
      have hlt := h.chosen idx (ServerlessPhase.chosen_of_awaits ha)
      have get := List.getElem?_eq_getElem hlt
      cases hr : s.runtime.pods[idx].rxOpen with
      | true => exact .inr ⟨_, .podReply ha get hr⟩
      | false => exact hsend (by simp [Runtime.stepSend, hs, ha, get, hr])
    | none =>
      have hp : s.runtime.phase = .joining := by simpa [Awaits, hs, ha] using awaits
      have hended : Runtime.PhaseHalted s.runtime.pods .joining := hp ▸ h.halted
      refine hsend ?_
      simp only [Runtime.stepSend, hs, ha]
      rw [if_pos ⟨hp, hended⟩]
      rfl

theorem Threaded.pending_worker (h : s.Threaded) (hosts : s.Hosts idx worker t p w) {token : Halter}
    (htoken : w.holdsToken token = true) : s.Pending (.worker idx worker) := by
  refine ⟨t, p, w, hosts, ?_⟩
  obtain hm | hp := Worker.holdsToken_iff.mp htoken
  · exact .inr (.inr (List.ne_nil_of_mem hm))
  · by_contra hnot
    have hawaiting := (h.scheduled idx t p hosts.thread hosts.get).awaiting worker w hosts.task
      fun hr => hnot (.inl hr)
    simp [hp] at hawaiting

theorem pending_of_full (hosts : s.Hosts idx worker t p w) (full : workerCapacity ≤ w.queue.length) :
    s.Pending (.worker idx worker) := by
  refine ⟨t, p, w, hosts, .inr (.inr fun hq => ?_)⟩
  simp [hq, workerCapacity] at full

theorem Threaded.pending_running (h : s.Threaded) (thread : s.threads[idx]? = some t)
    (running : t.running = some worker) : s.Pending (.worker idx worker) := by
  have hlt := h.length ▸ (List.getElem?_eq_some_iff.mp thread).1
  have get := List.getElem?_eq_getElem hlt
  obtain ⟨-, w, task, -⟩ := (h.scheduled idx t _ thread get).running worker running
  exact ⟨t, _, w, ⟨thread, get, task⟩, .inl running⟩

theorem Threaded.pending_of_waitsFor (h : s.Threaded) (ho : s.runtime.Owed) {x y : Task}
    (hw : s.WaitsFor x y) : s.Pending y := by
  cases hw with
  | @podQueue idx _ _ p sends get rx full =>
    refine ⟨p, get, rx, .inl fun hq => ?_⟩
    simp [hq, podCapacity] at full
  | @podReply idx p awaits get rx => exact ⟨p, get, rx, (ho.owes idx p awaits get rx).busy⟩
  | @podEnd idx p phase get rx =>
    have hended := ho.halted
    rw [phase] at hended
    simp [hended p (List.mem_of_getElem? get)] at rx
  | workerQueue hosts phase rx full => exact pending_of_full hosts full
  | workerToken hosts phase token => exact h.pending_worker hosts token
  | @ownToken idx p rest get phase =>
    exact absurd phase (h.not_ownToken get)
  | podThread thread running => exact h.pending_running thread running
  | workerThread hosts phase running ne => exact h.pending_running hosts.thread running
  | spawnQueue hosts phase unsent monitoring full =>
    refine ⟨_, hosts.thread, monitoring, fun hq => ?_⟩
    simp [hq, monitorCapacity] at full
  | spawnReply hosts phase sent monitoring =>
    exact ⟨_, hosts.thread, monitoring, List.ne_nil_of_mem sent⟩
  | monitorQueue hosts monitor rx full => exact pending_of_full hosts full
  | monitorToken hosts monitor token => exact h.pending_worker hosts token

theorem Threaded.progress (h : s.Threaded) (ho : s.runtime.Owed) {x : Task} (hx : s.Pending x) :
    s.Progress x := by
  cases x with
  | serverless => exact progress_serverless ho hx
  | pod idx =>
    obtain ⟨p, get, rx, busy⟩ := hx
    exact h.progress_pod get rx busy
  | worker idx worker =>
    obtain ⟨t, p, w, hosts, hpending⟩ := hx
    exact h.progress_worker hosts hpending
  | monitor idx =>
    obtain ⟨t, thread, monitoring, queue⟩ := hx
    exact progress_monitor thread monitoring queue
  | monitorWorker idx worker =>
    obtain ⟨t, p, w, hosts, monitoring, monitored, monitor⟩ := hx
    exact progress_monitorWorker hosts monitoring monitored monitor

theorem pending_of_awaits {x : Task} (hx : s.Awaits x) : s.Pending x := by
  cases x with
  | serverless | monitorWorker => exact hx
  | pod idx =>
    obtain ⟨p, get, hp, rx⟩ := hx
    exact ⟨p, get, rx, .inr hp⟩
  | worker idx worker =>
    obtain ⟨t, p, w, hosts, hp⟩ := hx
    exact ⟨t, p, w, hosts, .inr (.inl hp)⟩
  | monitor => exact hx.elim

theorem rank_worker_le : s.rank (.worker idx worker) ≤ 2 := by
  dsimp only [rank]
  split <;> omega

theorem Threaded.rank_lt (h : s.Threaded) (x y : Task) (hw : s.WaitsFor x y) :
    s.rank y < s.rank x := by
  have hlt : ∀ {idx worker : Nat}, s.rank (.worker idx worker) < 3 :=
    Nat.lt_succ_of_le rank_worker_le
  cases hw with
  | podQueue | podReply | podEnd => exact Nat.lt_succ_self 3
  | workerQueue | workerToken | podThread | monitorQueue | monitorToken => exact hlt
  | @ownToken idx p rest get phase =>
    exact absurd phase (h.not_ownToken get)
  | @workerThread idx worker other t p w hosts phase running ne =>
    simp [rank, hosts.thread, running, ne]
  | spawnQueue | spawnReply =>
    dsimp only [rank]
    split <;> omega

/-- Who is blocked waits, at the end of a chain, for someone who can go on; every way along
the chain ends so, and none comes back. -/
structure DeadlockFree (s : System) : Prop where
  blocked : ∀ x, s.Blocked x → ∃ y, Relation.TransGen s.WaitsFor x y ∧ s.Enabled y
  next : ∀ x y, s.WaitsFor x y → s.Progress y
  founded : WaitsFor.Founded s.WaitsFor

theorem deadlock_free (h : (machine c).Run as s) : s.DeadlockFree := by
  obtain ⟨bs, hr⟩ := (simulates c).reachable h
  have ht := threaded_run h
  have ho := Runtime.owed_run hr
  have hnext : ∀ x y, s.WaitsFor x y → s.Progress y :=
    fun x y hw => ht.progress ho (ht.pending_of_waitsFor ho hw)
  have hfounded := WaitsFor.founded_of_rank ht.rank_lt
  refine ⟨fun x ⟨hawaits, hnot⟩ => ?_, hnext, hfounded⟩
  obtain ⟨y, hy⟩ := (ht.progress ho (pending_of_awaits hawaits)).resolve_left hnot
  exact hfounded.exists_enabled hnext hy

def haltedTwice : List SystemAct :=
  [.runtime (.issue 0 (.createWorker "a")), .runtime (.enqueue 0), .runtime (.recv {}),
    .runtime .send, .runtime (.pod 0 .recv), .runtime .send, .runtime (.pod 0 .recv),
    .startMonitoring 0 0, .monitorRecv 0, .runtime (.pod 0 (.worker 0 (.init {}))),
    .runtime (.pod 0 (.worker 0 .monitorLeave)), .runtime (.pod 0 (.worker 0 .monitorSend)),
    .runtime .shutdown, .runtime .send, .runtime (.pod 0 .recv), .runtime (.pod 0 .send)]

theorem deadlock_free_haltedTwice :
    ∃ s, (machine Runtime.oneWorker).Run haltedTwice s ∧ s.WaitsFor .serverless (.pod 0) ∧
      s.WaitsFor (.pod 0) (.worker 0 0) ∧ s.WaitsFor (.monitorWorker 0 0) (.worker 0 0) ∧
      s.DeadlockFree := by
  obtain ⟨s, hrun, hserverless, hpod, hmonitor⟩ :
      ∃ s, (machine Runtime.oneWorker).Run haltedTwice s ∧ s.WaitsFor .serverless (.pod 0) ∧
        s.WaitsFor (.pod 0) (.worker 0 0) ∧ s.WaitsFor (.monitorWorker 0 0) (.worker 0 0) :=
    ⟨_, rfl, .podReply rfl rfl rfl, .workerToken ⟨rfl, rfl, rfl⟩ rfl rfl,
      .monitorToken ⟨rfl, rfl, rfl⟩ rfl rfl⟩
  exact ⟨s, hrun, hserverless, hpod, hmonitor, deadlock_free hrun⟩

end System

end Serverlessd
