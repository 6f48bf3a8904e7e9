import Serverlessd.Runtime.Pod.Replies

/-! The thread of a pod, on which `pod_task` and its workers take turns, and what the
acknowledgement of a `Halt` says. -/

namespace Serverlessd

namespace Worker

/-- The worker gives the thread back at an await point that suspends it.  `close_state` does
not suspend when it finds no future of the worker left. -/
def yields (w w' : Worker) : Bool :=
  match w'.phase with
  | .starting | .parked | .closed => true
  | .closing => !w.rxOpen || !w'.futures.isEmpty
  | _ => false

end Worker

def WorkerAct.monitors : WorkerAct → Bool
  | .monitorLeave | .monitorSend | .monitorDone => true
  | _ => false

/-- `running` is the worker that has the thread. -/
structure LocalSet where
  pod : PodTask
  running : Option Nat := none

inductive LocalAct
  | send (trigger : PodTrigger)
  | pod (a : PodAct)

namespace LocalSet

def send (s : LocalSet) (trigger : PodTrigger) : Option LocalSet :=
  match trigger with
  | .toWorker _ (.halt _) => none
  | _ =>
    if s.pod.rxOpen ∧ s.pod.queue.length < podCapacity then
      some { s with pod := { s.pod with queue := s.pod.queue ++ [trigger] } }
    else none

def work (s : LocalSet) (worker : Nat) (a : WorkerAct) : Option LocalSet :=
  match s.pod.tasks[worker]?, s.pod.step (.worker worker a) with
  | some w, some (pod, _) =>
    some { pod, running := if (pod.tasks[worker]?).all w.yields then none else some worker }
  | _, _ => none

def step (s : LocalSet) : LocalAct → Option LocalSet
  | .send trigger => s.send trigger
  | .pod (.worker worker a) =>
    if a.monitors then (s.pod.step (.worker worker a)).map fun next => { s with pod := next.1 }
    else if s.running = none ∨ s.running = some worker then s.work worker a
    else none
  | .pod a =>
    if s.running = none then (s.pod.step a).map fun next => { s with pod := next.1 } else none

def machine (nWorkers : Nat) : Machine LocalSet LocalAct := ⟨{ pod := .start nWorkers }, step⟩

end LocalSet

namespace Worker

variable {w w' : Worker} {a : WorkerAct} {o : WorkerOut}

structure Finished (w : Worker) : Prop where
  closed : w.phase = .closed
  futures : w.futures = []
  replies : ∀ r, w.held r = 0

def Idle (w : Worker) : Prop := w.phase = .starting ∨ w.phase = .closed → w.futures = []

theorem idle_of_phase (hs : w.phase ≠ .starting) (hc : w.phase ≠ .closed) : w.Idle :=
  fun h => absurd h (not_or.mpr ⟨hs, hc⟩)

theorem idle_of_inJs (h : w.inJs = true) : w.Idle := by
  refine idle_of_phase ?_ (phase_ne_closed_of_inJs h)
  intro hp
  simp [inJs, hp] at h

theorem idle_of_resumed (h : Resumed w w' o) : w'.Idle := by
  cases h with
  | polled => exact idle_of_phase (by dsimp only; split <;> simp) (by dsimp only; split <;> simp)
  | halt | call | skip | drained => exact idle_of_phase (by nofun) (by nofun)

theorem idle_of_returned {reply : Nat} {result : CallResult} (h : Returned w reply result w' o) :
    w'.Idle := by
  cases h <;> exact idle_of_phase (by simp) (by simp)

theorem Idle.step (h : w.Idle) (hs : Step w a w' o) : w'.Idle := by
  cases hs with
  | unmonitored phase => exact fun _ => h (.inl phase)
  | close phase futures => exact fun _ => futures
  | cancel | cancelClosing => exact fun _ => rfl
  | callFetch js => exact idle_of_inJs (w := { w with futures := w.futures ++ [false] }) js
  | resume drained hr => exact idle_of_resumed hr
  | terminate flag hr => exact idle_of_resumed hr
  | pollPending phase =>
    refine idle_of_phase ?_ ?_ <;> obtain phase | phase := phase <;> simp [phase]
  | ret phase drained hr => exact idle_of_returned hr
  | retTerminated phase flag hr => exact idle_of_returned hr
  | initLoop | initError | recv | retThrew | terminateCall | pollReady =>
    exact idle_of_phase (by nofun) (by nofun)
  | _ => exact h

def Emptied (w : Worker) : Prop := w.rxOpen = false → w.queue = []

theorem emptied_of_open (h : w.rxOpen = true) : w.Emptied := fun hr => by simp [h] at hr

theorem emptied_of_resumed (h : w.Emptied) (hr : Resumed w w' o) : w'.Emptied := by
  cases hr with
  | halt => exact fun _ => rfl
  | call | skip | drained => exact emptied_of_open rfl
  | @polled future closing phase =>
    cases closing with
    | false => exact emptied_of_open rfl
    | true => exact fun _ => h (by simp [rxOpen, phase])

theorem emptied_of_returned {reply : Nat} {result : CallResult} (h : Returned w reply result w' o) :
    w'.Emptied := by
  cases h with
  | value | chained | notRegistered => exact emptied_of_open rfl
  | noFunction => exact fun _ => rfl

theorem Emptied.step (h : w.Emptied) (hs : Step w a w' o) : w'.Emptied := by
  cases hs with
  | push rx | monitorSend halting rx => exact emptied_of_open rx
  | unmonitored | initError | retThrew | terminateCall | cancel | cancelClosing => exact fun _ => rfl
  | initLoop | recv => exact emptied_of_open rfl
  | ret phase drained hr => exact emptied_of_returned hr
  | retTerminated phase flag hr => exact emptied_of_returned hr
  | resume drained hr => exact emptied_of_resumed h hr
  | terminate flag hr =>
    exact emptied_of_resumed (w := { w with terminating := false }.discardJobs) h hr
  | @pollReady future polled closing phase =>
    cases closing with
    | false => exact emptied_of_open rfl
    | true => exact fun _ => h (by simp [rxOpen, phase])
  | close phase => exact fun _ => h (by simp [rxOpen, phase])
  | _ => exact h

def Working (w : Worker) : Prop := w.inJs = true ∨ w.phase = .closing ∧ w.futures = []

theorem working_of_yields (h : w.yields w' = false) : w'.Working := by
  unfold yields at h
  unfold Working inJs
  cases hp : w'.phase <;> simp_all

theorem phase_of_yields (h : w.yields w' = true) :
    w'.phase = .starting ∨ w'.phase = .parked ∨ w'.phase = .closed ∨ w'.phase = .closing := by
  unfold yields at h
  split at h <;> simp_all

end Worker

namespace PodTask

variable {p p' : PodTask} {a : PodAct} {o : PodOut} {i k n : Nat} {w w' : Worker}

def slotsFrom (p : PodTask) (k : Nat) : List (Option Nat) :=
  ((List.range p.tasks.length).drop k).map some

def Told (p : PodTask) (k : Nat) : Prop :=
  ∀ (i : Nat) (w : Worker), i < k → p.tasks[i]? = some w → w.rxOpen = false

def Halting (p : PodTask) : Prop :=
  match p.phase with
  | .halting rest => ∃ k, rest = p.slotsFrom k ∧ p.Told k
  | .haltWaiting worker rest => ∃ k, worker = some k ∧ rest = p.slotsFrom (k + 1) ∧ p.Told k ∧
    ∀ w, p.tasks[k]? = some w → w.rxOpen = true → w.holdsToken .pod = true
  | _ => True

theorem halting_of_phase (hh : ∀ rest, p.phase ≠ .halting rest)
    (hw : ∀ worker rest, p.phase ≠ .haltWaiting worker rest) : p.Halting := by
  unfold Halting
  split
  · exact absurd ‹_› (hh _)
  · exact absurd ‹_› (hw _ _)
  · trivial

theorem slotsFrom_cons (h : some i :: rest = p.slotsFrom k) :
    i = k ∧ rest = p.slotsFrom (k + 1) := by
  by_cases hk : k < p.tasks.length
  · have hlen : k < (List.range p.tasks.length).length := by simpa using hk
    rw [slotsFrom, List.drop_eq_getElem_cons hlen] at h
    simpa [slotsFrom] using h
  · simp [slotsFrom, List.drop_eq_nil_of_le, Nat.not_lt.mp hk] at h

theorem Told.set (h : p.Told k) (get : p.tasks[i]? = some w)
    (hrx : w'.rxOpen = true → w.rxOpen = true) : (p.setTask i w').Told k := by
  intro j v hj hv
  obtain ⟨rfl, rfl⟩ | ⟨-, hv⟩ := List.getElem?_set_cases hv
  · refine Bool.eq_false_iff.mpr fun hr => ?_
    rw [h j w hj get] at hrx
    cases hrx hr
  · exact h j v hj hv

theorem Told.succ (h : p.Told k) (hk : ∀ w, p.tasks[k]? = some w → w.rxOpen = false) :
    p.Told (k + 1) := by
  intro j w hj hw
  obtain hj | rfl := Nat.lt_succ_iff_lt_or_eq.mp hj
  · exact h j w hj hw
  · exact hk w hw

theorem Halting.step (h : p.Halting) (hslots : p.Slots) (hs : Step p a p' o) : p'.Halting := by
  cases hs with
  | checkVacancies phase | createWorker phase | unknown phase =>
    exact halting_of_phase (by simp [phase]) (by simp [phase])
  | forward | halted | hangup => exact halting_of_phase (by simp) (by simp)
  | halt phase head =>
    exact ⟨0, by simpa [slotsFrom] using hslots.workers_of_receiving phase,
      fun i w hi => absurd hi (Nat.not_lt_zero i)⟩
  | forwarded phase ht =>
    cases ht <;> exact halting_of_phase (by simp [setTask]) (by simp [setTask])
  | haltEmpty phase =>
    simp only [Halting, phase] at h
    obtain ⟨k, hrest, -⟩ := h
    have hm : none ∈ p.slotsFrom k := hrest ▸ List.mem_cons_self
    obtain ⟨i, -, hi⟩ := List.mem_map.mp hm
    cases hi
  | @haltWorker _ _ worker rest phase ht =>
    simp only [Halting, phase] at h
    obtain ⟨k, hrest, htold⟩ := h
    obtain ⟨rfl, hrest⟩ := slotsFrom_cons hrest
    cases ht with
    | @sent w task rx room =>
      refine ⟨worker, rfl, by simpa [slotsFrom, setTask] using hrest, htold.set task fun hr => hr,
        fun v hv _ => ?_⟩
      obtain ⟨-, rfl⟩ | ⟨hne, -⟩ := List.getElem?_set_cases hv
      · simp [Worker.holdsToken]
      · exact absurd rfl hne
    | @dropped w task rx =>
      refine ⟨worker, rfl, hrest, htold, fun v hv hr => ?_⟩
      obtain rfl : w = v := Option.some.inj (task.symm.trans hv)
      simp [rx] at hr
  | @token worker rest phase resolved =>
    simp only [Halting, phase] at h
    obtain ⟨k, hk, hrest, htold, hheld⟩ := h
    obtain rfl := Option.some.inj hk
    refine ⟨worker + 1, hrest, htold.succ fun w hw => Bool.eq_false_iff.mpr fun hr => ?_⟩
    have hnone := resolved w hw
    rw [hheld w hw hr] at hnone
    cases hnone
  | @worker i b w w' wo task runs hw =>
    have hset : ∀ {k : Nat}, p.Told k → (p.setTask i w').Told k :=
      fun ht => ht.set task (Worker.rxOpen_of_step hw)
    have hfrom : ∀ {k : Nat}, (p.setTask i w').slotsFrom k = p.slotsFrom k := by
      simp [slotsFrom, setTask]
    have hphase : (p.setTask i w').phase = p.phase := rfl
    cases hp : p.phase with
    | halting rest =>
      rw [hp] at hphase
      simp only [Halting, hp] at h
      simp only [Halting, hphase]
      obtain ⟨k, hrest, htold⟩ := h
      exact ⟨k, hfrom ▸ hrest, hset htold⟩
    | haltWaiting worker rest =>
      rw [hp] at hphase
      simp only [Halting, hp] at h
      simp only [Halting, hphase]
      obtain ⟨k, hk, hrest, htold, hheld⟩ := h
      refine ⟨k, hk, hfrom ▸ hrest, hset htold, fun v hv hr => ?_⟩
      obtain ⟨rfl, rfl⟩ | ⟨-, hv⟩ := List.getElem?_set_cases hv
      · exact Worker.holdsToken_of_step hw (hheld w task (Worker.rxOpen_of_step hw hr)) hr
      · exact hheld v hv hr
    | receiving | forwarding | ended =>
      exact halting_of_phase (by simp [hphase, hp]) (by simp [hphase, hp])

theorem Halting.head_lt (h : p.Halting) {rest : List (Option Nat)}
    (hp : p.phase = .halting (some i :: rest)) : i < p.tasks.length := by
  simp only [Halting, hp] at h
  obtain ⟨k, hrest, -⟩ := h
  obtain ⟨j, hj, heq⟩ := List.mem_map.mp (hrest ▸ List.mem_cons_self : some i ∈ p.slotsFrom k)
  cases heq
  simpa using List.mem_of_mem_drop hj

theorem Halting.waits_for (h : p.Halting) {slot : Option Nat} {rest : List (Option Nat)}
    (hp : p.phase = .haltWaiting slot rest) : ∃ k, slot = some k := by
  simp only [Halting, hp] at h
  obtain ⟨k, hk, -⟩ := h
  exact ⟨k, hk⟩

theorem Halting.all_left (h : p.Halting) (hp : p.phase = .halting []) :
    ∀ w ∈ p.tasks, w.rxOpen = false := by
  simp only [Halting, hp] at h
  obtain ⟨k, hrest, htold⟩ := h
  intro w hw
  obtain ⟨i, get⟩ := List.mem_iff_getElem?.mp hw
  have hlt := (List.getElem?_eq_some_iff.mp get).1
  have hlen : p.tasks.length ≤ k := by simpa [slotsFrom] using hrest.symm
  exact htold i w (by omega) get

theorem phase_of_triggered {trigger : WorkerTrigger} {target : Nat}
    (ht : Triggered p target trigger p' o) (hw : p'.tasks[i]? = some w') :
    ∃ w, p.tasks[i]? = some w ∧ w'.phase = w.phase := by
  cases ht with
  | dropped => exact ⟨w', hw, rfl⟩
  | sent task =>
    obtain ⟨rfl, rfl⟩ | ⟨-, hw⟩ := List.getElem?_set_cases hw
    · exact ⟨_, task, rfl⟩
    · exact ⟨w', hw, rfl⟩

theorem phase_of_step (hs : Step p a p' o) (ha : ∀ worker b, a ≠ .worker worker b)
    (hw : p'.tasks[i]? = some w') :
    w'.phase = .starting ∨ ∃ w, p.tasks[i]? = some w ∧ w'.phase = w.phase := by
  cases hs with
  | createWorker =>
    obtain hw | ⟨-, rfl⟩ := List.getElem?_concat_eq_some.mp hw
    · exact .inr ⟨w', hw, rfl⟩
    · exact .inl rfl
  | forwarded phase ht | haltWorker phase ht =>
    have hold := phase_of_triggered ht hw
    exact .inr hold
  | worker => exact absurd rfl (ha _ _)
  | checkVacancies | forward | unknown | halt | haltEmpty | token | halted | hangup =>
    exact .inr ⟨w', hw, rfl⟩

theorem rxOpen_of_runs {b : WorkerAct} (h : p.runs b = true) (hm : b.monitors = false)
    (hc : b ≠ .cancel) : p.rxOpen = true := by
  cases b with
  | cancel => exact absurd rfl hc
  | monitorLeave | monitorSend | monitorDone => cases hm
  | _ => first | exact h | cases h

theorem forwarding_lt_of_step (hslots : p.Slots)
    (h : ∀ i trigger, p.phase = .forwarding i trigger → i < p.tasks.length) (hs : Step p a p' o)
    (i : Nat) (trigger : WorkerTrigger) (hp : p'.phase = .forwarding i trigger) :
    i < p'.tasks.length := by
  cases hs with
  | checkVacancies phase | createWorker phase | unknown phase => simp [phase] at hp
  | forward phase head slot =>
    obtain ⟨rfl, hlt⟩ := hslots.getWorker phase slot
    cases hp
    exact hlt
  | forwarded phase ht => cases ht <;> cases hp
  | haltWorker phase ht => cases ht <;> cases hp
  | halt | haltEmpty | token | halted | hangup => cases hp
  | worker => simpa [setTask] using h i trigger hp

theorem forall_tasks_step {P : Worker → Prop} (init : ∀ task, P { task })
    (step : ∀ {w a w' o}, P w → Worker.Step w a w' o → P w') (h : ∀ w ∈ p.tasks, P w)
    (hs : Step p a p' o) : ∀ w ∈ p'.tasks, P w := by
  intro w' hw'
  obtain ⟨worker, hw'⟩ := List.mem_iff_getElem?.mp hw'
  obtain ⟨w, hw, hm⟩ | ⟨-, hnew⟩ := started_of_step hs hw'
  · cases hm with
    | same => exact h _ (List.mem_of_getElem? hw)
    | stepped hstep => exact step (h w (List.mem_of_getElem? hw)) hstep
  · exact hnew ▸ init _

end PodTask

theorem Worker.frame_of_monitors {w w' : Worker} {b : WorkerAct} {o : WorkerOut}
    (hs : Worker.Step w b w' o) (hb : b.monitors = true) :
    w'.phase = w.phase ∧ w'.futures = w.futures := by
  cases hs <;> first | exact ⟨rfl, rfl⟩ | cases hb

namespace LocalSet

variable {s s' : LocalSet} {a : LocalAct} {as : List LocalAct} {i n : Nat} {w : Worker}

structure Scheduled (s : LocalSet) : Prop where
  slots : s.pod.Slots
  halting : s.pod.Halting
  idle : ∀ w ∈ s.pod.tasks, w.Idle
  emptied : ∀ w ∈ s.pod.tasks, w.Emptied
  sound : s.pod.rxOpen = true → s.pod.Sound
  awaiting : ∀ (i : Nat) (w : Worker), s.pod.tasks[i]? = some w → s.running ≠ some i →
    w.phase = .starting ∨ w.phase = .parked ∨ w.phase = .closed ∨ w.phase = .closing
  running : ∀ i, s.running = some i →
    s.pod.rxOpen = true ∧ ∃ w, s.pod.tasks[i]? = some w ∧ w.Working
  forwarding : ∀ i trigger, s.pod.phase = .forwarding i trigger → i < s.pod.tasks.length

theorem scheduled_init (n : Nat) : (machine n).init.Scheduled where
  slots := PodTask.slots_start n
  halting := trivial
  idle := by simp [machine, PodTask.start]
  emptied := by simp [machine, PodTask.start]
  sound := fun _ => by simp [machine, PodTask.start, PodTask.Sound]
  awaiting := by simp [machine, PodTask.start]
  running := by simp [machine]
  forwarding := by simp [machine, PodTask.start]

inductive Step (s : LocalSet) : LocalAct → LocalSet → Prop
  | send {trigger : PodTrigger} (rx : s.pod.rxOpen = true) :
      Step s (.send trigger)
        { s with pod := { s.pod with queue := s.pod.queue ++ [trigger] } }
  | monitor {worker : Nat} {b : WorkerAct} {p : PodTask} {o : PodOut} (monitors : b.monitors = true)
      (h : PodTask.Step s.pod (.worker worker b) p o) :
      Step s (.pod (.worker worker b)) { s with pod := p }
  | worker {worker : Nat} {b : WorkerAct} {w : Worker} {p : PodTask} {o : PodOut}
      (own : b.monitors = false) (turn : s.running = none ∨ s.running = some worker)
      (get : s.pod.tasks[worker]? = some w) (h : PodTask.Step s.pod (.worker worker b) p o) :
      Step s (.pod (.worker worker b))
        { pod := p, running := if (p.tasks[worker]?).all w.yields then none else some worker }
  | pod {b : PodAct} {p : PodTask} {o : PodOut} (turn : s.running = none)
      (hb : ∀ worker c, b ≠ .worker worker c) (h : PodTask.Step s.pod b p o) :
      Step s (.pod b) { s with pod := p }

theorem step_sound (h : s.step a = some s') : Step s a s' := by
  cases a with
  | send trigger =>
    simp only [step, send] at h
    split at h
    · cases h
    · obtain ⟨⟨hrx, -⟩, h⟩ := Option.ite_none_right_eq_some.mp h
      cases h
      exact .send hrx
  | pod b =>
    have hpod : ∀ {t : LocalSet}, (s.pod.step b).map (fun next => { s with pod := next.1 }) = some t →
        ∃ p o, PodTask.Step s.pod b p o ∧ { s with pod := p } = t := by
      intro t ht
      obtain ⟨⟨p, o⟩, hs, rfl⟩ := Option.map_eq_some_iff.mp ht
      exact ⟨p, o, PodTask.step_sound hs, rfl⟩
    cases b with
    | worker worker b =>
      simp only [step] at h
      split at h
      · obtain ⟨p, o, hs, rfl⟩ := hpod h
        exact .monitor ‹_› hs
      · obtain ⟨hturn, h⟩ := Option.ite_none_right_eq_some.mp h
        unfold work at h
        split at h
        · rename_i w p o hget hs
          cases h
          exact .worker (Bool.not_eq_true _ ▸ ‹_›) hturn hget (PodTask.step_sound hs)
        · cases h
    | recv | send | token | hangup =>
      obtain ⟨hturn, h⟩ := Option.ite_none_right_eq_some.mp h
      obtain ⟨p, o, hs, rfl⟩ := hpod h
      exact .pod hturn (by simp) hs

theorem Scheduled.pod (h : s.Scheduled) {b : PodAct} {p : PodTask} {o : PodOut} {running : Option Nat}
    (hs : PodTask.Step s.pod b p o)
    (hawait : ∀ (i : Nat) (w : Worker), p.tasks[i]? = some w → running ≠ some i →
      w.phase = .starting ∨ w.phase = .parked ∨ w.phase = .closed ∨ w.phase = .closing)
    (hrunning : ∀ i, running = some i → p.rxOpen = true ∧ ∃ w, p.tasks[i]? = some w ∧ w.Working) :
    ({ pod := p, running := running } : LocalSet).Scheduled where
  slots := h.slots.step hs
  halting := h.halting.step h.slots hs
  idle := PodTask.forall_tasks_step (fun _ _ => rfl) Worker.Idle.step h.idle hs
  emptied := PodTask.forall_tasks_step (fun _ _ => rfl) Worker.Emptied.step h.emptied hs
  sound := by
    intro hr
    have hopen := PodTask.rxOpen_of_step hs hr
    refine (h.sound hopen).step hs fun worker hb => ?_
    cases hs with
    | worker task runs => cases hb; simp [PodTask.runs, hopen] at runs
    | _ => cases hb
  awaiting := hawait
  running := hrunning
  forwarding := PodTask.forwarding_lt_of_step h.slots h.forwarding hs

theorem Scheduled.step (h : s.Scheduled) (hs : Step s a s') : s'.Scheduled := by
  cases hs with
  | send rx =>
    refine ⟨⟨h.slots.vacancies, h.slots.workers, fun hc => ?_⟩, h.halting, h.idle, h.emptied, h.sound,
      h.awaiting, h.running, h.forwarding⟩
    exact absurd (rx.symm.trans hc) (by simp)
  | @monitor worker b p o monitors hs =>
    refine h.pod hs (fun i w hw hne => ?_) fun i hi => ?_
    · cases hs with
      | worker task runs hstep =>
        obtain ⟨rfl, rfl⟩ | ⟨-, hw⟩ := List.getElem?_set_cases hw
        · rw [(Worker.frame_of_monitors hstep monitors).1]
          exact h.awaiting _ _ task hne
        · exact h.awaiting _ _ hw hne
    · obtain ⟨hopen, w, get, hwork⟩ := h.running i hi
      cases hs with
      | @worker _ _ v v' wo task runs hstep =>
        refine ⟨hopen, ?_⟩
        by_cases hiw : i = worker
        · subst hiw
          obtain rfl : v = w := Option.some.inj (task.symm.trans get)
          obtain ⟨hp, hf⟩ := Worker.frame_of_monitors hstep monitors
          refine ⟨v', List.getElem?_set_self (List.getElem?_eq_some_iff.mp task).1, ?_⟩
          simpa [Worker.Working, Worker.inJs, hp, hf] using hwork
        · exact ⟨w, by rwa [PodTask.setTask, List.getElem?_set_ne (Ne.symm hiw)], hwork⟩
  | @worker worker b v p o own turn get hs =>
    refine h.pod hs (fun i w hw hne => ?_) fun i hi => ?_
    · by_cases hi : i = worker
      · subst hi
        refine Worker.phase_of_yields (w := v) ?_
        by_contra hy
        simp [hw, hy] at hne
      · have hother : s.running ≠ some i := by
          obtain hr | hr := turn <;> simp [hr, Ne.symm hi]
        cases hs with
        | worker =>
          have hw := (List.getElem?_set_cases hw).resolve_left fun hc => hi hc.1
          exact h.awaiting i w hw.2 hother
    · split at hi
      · cases hi
      · rename_i hy
        obtain rfl := Option.some.inj hi
        cases hs with
        | @worker _ _ u w' wo task runs hstep =>
          have hget : (s.pod.setTask worker w').tasks[worker]? = some w' :=
            List.getElem?_set_self (List.getElem?_eq_some_iff.mp task).1
          simp only [hget, Option.all_some, Bool.not_eq_true] at hy
          refine ⟨?_, w', hget, Worker.working_of_yields hy⟩
          exact PodTask.rxOpen_of_runs runs own fun hc => by
            subst hc
            cases hstep <;> simp [Worker.yields] at hy
  | pod turn hb hs =>
    refine h.pod hs (fun i w hw hne => ?_) (by simp [turn])
    obtain hw | ⟨v, hv, hp⟩ := PodTask.phase_of_step hs hb hw
    · exact .inl hw
    · rw [hp]
      exact h.awaiting i v hv hne

theorem scheduled_run (h : (machine n).Run as s) : s.Scheduled :=
  h.invariant (scheduled_init n) fun hi hs => hi.step (step_sound hs)

def Acknowledges (s : LocalSet) (a : LocalAct) : Prop := a = .pod .send ∧ s.pod.phase = .halting []

def Truthful (s : LocalSet) (a : LocalAct) : Prop :=
  s.Acknowledges a → ∀ w ∈ s.pod.tasks, w.Finished

def Unsuspended (s : LocalSet) (a : LocalAct) : Prop :=
  s.Acknowledges a → ∀ w ∈ s.pod.tasks, w.phase ≠ .closing

theorem Scheduled.truthful (h : s.Scheduled) (hs : Step s a s') (hu : s.Unsuspended a) :
    s.Truthful a := by
  rintro ⟨rfl, hp⟩ w hw
  have hopen : s.pod.rxOpen = true := by simp [PodTask.rxOpen, hp]
  have hrx := h.halting.all_left hp w hw
  obtain ⟨i, get⟩ := List.mem_iff_getElem?.mp hw
  obtain ⟨-, -, hv⟩ := h.sound hopen w hw
  have hclosed : w.phase = .closed := by
    cases hs with
    | pod turn =>
      obtain hc | hc | hc | hc := h.awaiting i w get (by simp [turn])
      · simp [Worker.rxOpen, hc] at hrx
      · simp [Worker.rxOpen, hc] at hrx
      · exact hc
      · exact absurd hc (hu ⟨rfl, hp⟩ w hw)
  exact ⟨hclosed, h.idle w hw (.inr hclosed), fun r => hv.held_eq_zero hclosed⟩

/-- The acknowledgements of a run are right if and only if none is sent while a worker waits
for its futures. -/
theorem truthful_iff (h : (machine n).Run as s) :
    (machine n).Guarded Truthful as ↔ (machine n).Guarded Unsuspended as := by
  constructor
  · exact fun hc => hc.imp fun ht hack w hw hp => by simp [(ht hack w hw).closed] at hp
  · intro hc
    refine h.guarded fun hp hr hs => ?_
    exact (scheduled_run hr).truthful (step_sound hs) ((hc.of_prefix hp).last hr)

def haltRun : List LocalAct :=
  [.send (.createWorker ⟨"", 0⟩), .pod .recv, .pod (.worker 0 (.init {})),
    .send (.toWorker 0 (.http 1)), .pod .recv, .pod .send, .pod (.worker 0 .recv),
    .pod (.worker 0 .resume), .pod (.worker 0 .newPromise), .pod (.worker 0 .callFetch),
    .pod (.worker 0 (.ret (.promise 0 .ok))), .pod (.worker 0 .resume), .send .halt, .pod .recv,
    .pod .send, .pod (.worker 0 .recv), .pod (.worker 0 .resume), .pod .token]

def closedRun : List LocalAct :=
  haltRun ++ [.pod (.worker 0 (.poll 0 true)), .pod (.worker 0 .resume), .pod (.worker 0 .close)]

theorem truthful_iff_closedRun : ∃ s, (machine 1).Run closedRun s ∧ s.Acknowledges (.pod .send) ∧
    ((machine 1).Guarded Truthful (closedRun ++ [.pod .send]) ↔
      (machine 1).Guarded Unsuspended (closedRun ++ [.pod .send])) := by
  have hrun : (machine 1).Run (closedRun ++ [.pod .send]) _ := rfl
  exact ⟨_, rfl, ⟨rfl, rfl⟩, truthful_iff hrun⟩

theorem halted_early : ¬ (machine 1).Guarded Truthful (haltRun ++ [.pod .send]) ∧
    ∃ s w, (machine 1).Run haltRun s ∧ s.Acknowledges (.pod .send) ∧ s.pod.tasks = [w] ∧
      w.phase = .closing ∧ w.futures = [false] ∧ w.held 1 = 1 := by
  obtain ⟨s, w, hrun, hack, hw, hp, hf, hr⟩ : ∃ s w, (machine 1).Run haltRun s ∧
      s.Acknowledges (.pod .send) ∧ s.pod.tasks = [w] ∧ w.phase = .closing ∧ w.futures = [false] ∧
        w.held 1 = 1 := ⟨_, _, rfl, ⟨rfl, rfl⟩, rfl, rfl, rfl, by decide⟩
  refine ⟨fun h => ?_, s, w, hrun, hack, hw, hp, hf, hr⟩
  have hfinished := h.last hrun hack w (by simp [hw])
  exact absurd hfinished.closed (by simp [hp])

end LocalSet

end Serverlessd
