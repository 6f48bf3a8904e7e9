import Serverlessd.Lib.LeadsTo
import Serverlessd.Runtime.Deadlock
import Serverlessd.Runtime.Pod.Halt

namespace Serverlessd

def LocalAct.works : LocalAct → Prop
  | .pod .recv | .pod .send | .pod .token => True
  | _ => False

namespace PodTask

structure Regular (p : PodTask) : Prop where
  slots : p.Slots
  halting : p.Halting
  emptied : ∀ w ∈ p.tasks, w.Emptied
  forwarding : ∀ worker trigger, p.phase = .forwarding worker trigger → worker < p.tasks.length
  waiting : ∀ worker rest, p.phase = .haltWaiting (some worker) rest → worker < p.tasks.length

section Steps

variable {p p' : PodTask} {a : LocalAct} {b : PodAct} {o : PodOut} {q : List PodTrigger}
variable {nWorkers : Nat}

theorem regular_start (nWorkers : Nat) : (start nWorkers).Regular where
  slots := slots_start nWorkers
  halting := trivial
  emptied := by simp [start]
  forwarding := by simp [start]
  waiting := by simp [start]

theorem waiting_lt_of_step (h : p.Halting)
    (hlt : ∀ i rest, p.phase = .haltWaiting (some i) rest → i < p.tasks.length) (hs : Step p b p' o)
    (i : Nat) (rest : List (Option Nat)) (hp : p'.phase = .haltWaiting (some i) rest) :
    i < p'.tasks.length := by
  cases hs with
  | checkVacancies phase | createWorker phase | unknown phase => simp [phase] at hp
  | forwarded phase ht => cases ht <;> cases hp
  | haltWorker phase ht =>
    have hhead := h.head_lt phase
    cases ht <;> cases hp
    · simpa [setTask] using hhead
    · exact hhead
  | forward | halt | haltEmpty | token | halted | hangup => cases hp
  | worker => simpa [setTask] using hlt i rest hp

theorem Regular.step (h : p.Regular) (hs : Step p b p' o) : p'.Regular where
  slots := h.slots.step hs
  halting := h.halting.step h.slots hs
  emptied := forall_tasks_step (fun _ _ => rfl) Worker.Emptied.step h.emptied hs
  forwarding := forwarding_lt_of_step h.slots h.forwarding hs
  waiting := waiting_lt_of_step h.halting h.waiting hs

theorem Regular.push (h : p.Regular) (rx : p.rxOpen = true) (trigger : PodTrigger) :
    ({ p with queue := p.queue ++ [trigger] } : PodTask).Regular where
  slots := ⟨h.slots.vacancies, h.slots.workers, fun hc => absurd (rx.symm.trans hc) (by simp)⟩
  halting := h.halting
  emptied := h.emptied
  forwarding := h.forwarding
  waiting := h.waiting

theorem queue_length_of_step (hs : Step p b p' o) : p'.queue.length ≤ p.queue.length := by
  cases hs with
  | checkVacancies phase head | createWorker phase head | forward phase head | unknown phase head
  | halt phase head => simp [head]
  | forwarded phase ht => cases ht <;> exact Nat.le_refl _
  | haltWorker phase ht => cases ht <;> exact Nat.le_refl _
  | haltEmpty | token | hangup | worker => exact Nat.le_refl _
  | halted => exact Nat.zero_le _

theorem Regular.stepOpen (h : p.Regular) (hs : p.stepOpen a = some p') : p'.Regular := by
  cases a with
  | send trigger =>
    obtain ⟨⟨rx, -⟩, hs⟩ := Option.ite_none_right_eq_some.mp hs
    cases hs
    exact h.push rx trigger
  | pod b =>
    obtain ⟨⟨t, o⟩, hstep, rfl⟩ := Option.map_eq_some_iff.mp hs
    exact h.step (step_sound hstep)

theorem works_of_ofTask (hs : OpenStep p a p') (ha : a.ofTask) (hp : p.phase ≠ .receiving) :
    a.works := by
  obtain ⟨b, o, rfl, hb, hs⟩ : ∃ b o, a = .pod b ∧ (∀ worker d, b ≠ .worker worker d) ∧
      Step p b p' o := by
    cases hs with
    | send => exact ha.elim
    | pod hs => exact ⟨_, _, rfl, fun worker d hb => by subst hb; exact ha, hs⟩
  cases b with
  | hangup => cases hs with | hangup phase => exact absurd phase hp
  | worker worker d => exact absurd rfl (hb worker d)
  | recv | send | token => trivial

inductive Worked (s : PodTask) : PodPhase → LocalAct → PodTask → Prop
  | recv {s' : PodTask} {o : PodOut} (h : Step s .recv s' o) :
      Worked s .receiving (.pod .recv) s'
  | forwarded {s' : PodTask} {o : PodOut} {worker : Nat} {trigger : WorkerTrigger}
      (h : Triggered { s with phase := .receiving } worker trigger s' o) :
      Worked s (.forwarding worker trigger) (.pod .send) s'
  | haltWorker {s' : PodTask} {o : PodOut} {worker : Nat} {rest : List (Option Nat)}
      (h : Triggered { s with phase := .haltWaiting (some worker) rest } worker (.halt .pod) s' o) :
      Worked s (.halting (some worker :: rest)) (.pod .send) s'
  | haltEmpty {rest : List (Option Nat)} :
      Worked s (.halting (none :: rest)) (.pod .send) { s with phase := .haltWaiting none rest }
  | halted : Worked s (.halting []) (.pod .send) { s with phase := .ended, queue := [] }
  | token {worker : Nat} {rest : List (Option Nat)} :
      Worked s (.haltWaiting (some worker) rest) (.pod .token) { s with phase := .halting rest }

theorem worked_of_open {phase : PodPhase} (hs : OpenStep p a p') (ha : a.works)
    (hphase : p.phase = phase) : Worked p phase a p' := by
  cases hs with
  | send => exact ha.elim
  | pod hs =>
    have hstep := hs
    cases hs with
    | checkVacancies phase | createWorker phase | forward phase | unknown phase | halt phase =>
      obtain rfl := hphase.symm.trans phase
      exact .recv hstep
    | forwarded phase ht =>
      obtain rfl := hphase.symm.trans phase
      exact .forwarded ht
    | haltWorker phase ht =>
      obtain rfl := hphase.symm.trans phase
      exact .haltWorker ht
    | haltEmpty phase =>
      obtain rfl := hphase.symm.trans phase
      exact .haltEmpty
    | halted phase =>
      obtain rfl := hphase.symm.trans phase
      exact .halted
    | token phase =>
      obtain rfl := hphase.symm.trans phase
      exact .token
    | hangup | worker => exact ha.elim

theorem tail_of_recv {trigger : PodTrigger} (hs : Step p .recv p' o) (hq : trigger :: q <+: p.queue) :
    q <+: p'.queue := by
  have htail : ∀ {event : PodTrigger} {queue : List PodTrigger}, p.queue = event :: queue →
      q <+: queue := fun head => by
    rw [head] at hq
    exact (List.cons_prefix_cons.mp hq).2
  cases hs with
  | checkVacancies phase head | createWorker phase head | forward phase head | unknown phase head
  | halt phase head => exact htail head

theorem queue_length_of_recv (hs : Step p .recv p' o) : p'.queue.length < p.queue.length := by
  cases hs with
  | checkVacancies phase head | createWorker phase head | forward phase head | unknown phase head
  | halt phase head => simp [head]

theorem heard_of_recv {waiting : ServerlessPhase} {trigger : PodTrigger} (hs : Step p .recv p' o)
    (hq : trigger :: q <+: p.queue) (h : waiting.asked trigger = true) :
    waiting.hears o.reply = true ∨ p'.halts = true := by
  have hhead : ∀ {event : PodTrigger} {queue : List PodTrigger}, p.queue = event :: queue →
      trigger = event := fun head => by
    rw [head] at hq
    exact (List.cons_prefix_cons.mp hq).1
  cases hs with
  | checkVacancies phase head | createWorker phase head =>
    obtain rfl := hhead head
    exact .inl (by cases waiting <;> first | rfl | cases h)
  | forward phase head | unknown phase head =>
    obtain rfl := hhead head
    cases waiting <;> cases h
  | halt => exact .inr rfl

theorem queue_of_open (hs : OpenStep p a p') (ha : ¬ a.ofTask) (hq : q <+: p.queue) :
    q <+: p'.queue := by
  cases hs with
  | send => exact hq.trans (List.prefix_append _ _)
  | pod hs =>
    cases hs with
    | worker => exact hq
    | _ => exact absurd trivial ha

end Steps

section Served

variable {nWorkers : Nat} {b : (start nWorkers).machine.Behaviour} {n k : Nat} {phase : PodPhase}
variable {q : List PodTrigger} {trigger : PodTrigger}

structure Served (b : (start nWorkers).machine.Behaviour) : Prop where
  task : b.WeaklyFair LocalAct.works
  worker : ∀ n i w, (b.state n).tasks[i]? = some w → w.rxOpen = true → w.events ≠ [] →
    ∃ m, n ≤ m ∧ ∃ v, (b.state m).tasks[i]? = some v ∧
      (v.rxOpen = false ∨ ∃ a, b.act m = some (.pod (.worker i a)) ∧ v.Processes a)

theorem queue_length_le (b : (start nWorkers).machine.Behaviour) (n : Nat) :
    (b.state n).queue.length ≤ podCapacity := by
  refine b.invariant (P := fun s => s.queue.length ≤ podCapacity) (Nat.zero_le _) ?_ n
  intro s a s' h hs
  cases a with
  | send trigger =>
    obtain ⟨⟨-, room⟩, hs⟩ := Option.ite_none_right_eq_some.mp hs
    cases hs
    simpa using Nat.succ_le_of_lt room
  | pod c =>
    obtain ⟨⟨t, o⟩, hstep, rfl⟩ := Option.map_eq_some_iff.mp hs
    exact Nat.le_trans (queue_length_of_step (step_sound hstep)) h

theorem regular (b : (start nWorkers).machine.Behaviour) (n : Nat) : (b.state n).Regular :=
  b.invariant (regular_start nWorkers) (fun h hs => h.stepOpen hs) n

theorem worked_of_takes {a : LocalAct} (ha : a.works) (hact : b.act n = some a)
    (hphase : (b.state n).phase = phase) : Worked (b.state n) phase a (b.state (n + 1)) :=
  worked_of_open (stepOpen_sound (b.step n a hact)) ha hphase

theorem step_of_pod {c : PodAct} (hact : b.act n = some (.pod c)) :
    ∃ o, (b.state n).step c = some (b.state (n + 1), o) := by
  obtain ⟨⟨t, o⟩, hs, ht⟩ := Option.map_eq_some_iff.mp (b.step n _ hact)
  exact ⟨o, ht ▸ hs⟩

theorem keep_queue {s s' : PodTask} {a : LocalAct} (hne : phase ≠ .receiving) (ha : ¬ a.works)
    (h : s.phase = phase ∧ q <+: s.queue) (hs : (start nWorkers).machine.step s a = some s') :
    s'.phase = phase ∧ q <+: s'.queue := by
  have hs := stepOpen_sound hs
  have ha : ¬ a.ofTask := fun hc => ha (works_of_ofTask hs hc (h.1 ▸ hne))
  exact ⟨(phase_of_open hs ha).trans h.1, queue_of_open hs ha h.2⟩

theorem not_takes_ofTask (hphase : ∀ m, n ≤ m → (b.state m).phase ≠ .receiving)
    (hno : ∀ m, n ≤ m → ¬ b.Takes LocalAct.works m) {m : Nat} (hm : n ≤ m) :
    ¬ b.Takes LocalAct.ofTask m := by
  rintro ⟨a, ha, hact⟩
  have hwork := works_of_ofTask (stepOpen_sound (b.step m a hact)) ha (hphase m hm)
  exact hno m hm ⟨a, hwork, hact⟩

theorem Served.drained (hf : Served b) (hphase : ∀ m, n ≤ m → (b.state m).phase ≠ .receiving)
    (hno : ∀ m, n ≤ m → ¬ b.Takes LocalAct.works m) (hk : k < (b.state n).tasks.length) :
    ∃ m, n ≤ m ∧ ∃ v, (b.state m).tasks[k]? = some v ∧ (v.rxOpen = false ∨ v.events = []) := by
  have hfair : @Fair (b.state n) (b.drop n) := by
    refine ⟨fun i hi => ?_, fun i j w hw hr he => ?_⟩
    · -- what is enabled is always part of the work, so that fairness takes it after all
      obtain ⟨m, hm, ht⟩ := hf.task (n + i) fun m hm => by
        obtain ⟨d, rfl⟩ := Nat.exists_eq_add_of_le hm
        obtain ⟨a, ha, hs⟩ := hi (i + d) (Nat.le_add_right i d)
        have hs : ((b.state (n + i + d)).stepOpen a).isSome := by rwa [Nat.add_assoc]
        obtain ⟨s', hs'⟩ := Option.isSome_iff_exists.mp hs
        have hne := hphase (n + i + d) (by omega)
        exact ⟨a, works_of_ofTask (stepOpen_sound hs') ha hne, hs⟩
      exact absurd ht (hno m (by omega))
    · obtain ⟨m, hm, v, hv, hdone⟩ := hf.worker (n + i) j w hw hr he
      obtain ⟨d, rfl⟩ := Nat.exists_eq_add_of_le hm
      rw [Nat.add_assoc] at hv hdone
      exact ⟨i + d, Nat.le_add_right i d, v, hv, hdone⟩
  obtain ⟨m, -, v, hv, hdone⟩ := hfair.drained (n := 0)
    (fun m _ => not_takes_ofTask hphase hno (Nat.le_add_right n m)) (List.getElem?_eq_getElem hk)
  exact ⟨n + m, Nat.le_add_right n m, v, hv, hdone⟩

theorem Served.taken (hf : Served b) {Q : Worker → Prop} (hk : k < (b.state n).tasks.length)
    (hne : phase ≠ .receiving) (hphase : (b.state n).phase = phase) (hq : q <+: (b.state n).queue)
    (keep : ∀ {w a w' o}, Q w → Worker.Step w a w' o → (∀ trigger, a ≠ .push trigger) → Q w')
    (done : ∀ {w : Worker}, w.Emptied → w.rxOpen = false ∨ w.events = [] → Q w)
    (enabled : ∀ {s : PodTask} {w : Worker}, s.phase = phase → s.tasks[k]? = some w → Q w →
      ∃ a : LocalAct, a.works ∧ (s.stepOpen a).isSome) :
    ∃ m, n ≤ m ∧ b.Takes LocalAct.works m ∧ (b.state m).phase = phase ∧ q <+: (b.state m).queue := by
  refine b.exists_first (fun ha h hs => keep_queue hne ha h hs) ⟨hphase, hq⟩ ?_
  by_contra hex
  have hno : ∀ m, n ≤ m → ¬ b.Takes LocalAct.works m := fun m hm ht => hex ⟨m, hm, ht⟩
  have hstays : ∀ m, n ≤ m → (b.state m).phase = phase := fun m hm =>
    (b.persists (fun ha h hs => keep_queue (q := []) hne ha h hs) ⟨hphase, List.nil_prefix⟩ hm
      fun i hi _ => hno i hi).1
  have hnot := fun m (hm : n ≤ m) => not_takes_ofTask (fun i hi => hstays i hi ▸ hne) hno hm
  obtain ⟨m, hm, v, hv, hdone⟩ := hf.drained (fun i hi => hstays i hi ▸ hne) hno hk
  have hvQ := done ((regular b m).emptied v (List.mem_of_getElem? hv)) hdone
  obtain ⟨i, hi, ht⟩ := hf.task m fun i hi => by
    obtain ⟨hphase, w, hw, hQ⟩ := b.persists (F := LocalAct.ofTask) (keep_worker keep)
      ⟨hstays m hm, v, hv, hvQ⟩ hi fun j hj _ => hnot j (Nat.le_trans hm hj)
    exact enabled hphase hw hQ
  exact hno i (Nat.le_trans hm hi) ht

theorem Served.forwards (hf : Served b) {trigger : WorkerTrigger}
    (hphase : (b.state n).phase = .forwarding k trigger) (hq : q <+: (b.state n).queue) :
    ∃ m, n ≤ m ∧ (b.state m).phase = .receiving ∧ q <+: (b.state m).queue := by
  obtain ⟨m, hm, ⟨a, ha, hact⟩, hphase, hq⟩ := hf.taken
    ((regular b n).forwarding k trigger hphase) (by simp) hphase hq Worker.Accepting.step
    (fun _ hdone => Worker.accepting_of_done hdone) fun {s w} hphase hw hQ => by
      refine ⟨.pod .send, trivial, ?_⟩
      have hsome := System.trigger_isSome (p := { s with phase := .receiving }) hw hQ.room trigger
      simpa [PodTask.stepOpen, PodTask.step, hphase] using hsome
  have hs := worked_of_takes ha hact hphase
  refine ⟨m + 1, Nat.le_succ_of_le hm, ?_⟩
  generalize b.state (m + 1) = s' at hs ⊢
  cases hs with
  | forwarded ht => cases ht <;> exact ⟨rfl, hq⟩

theorem Served.told (hf : Served b) {rest : List (Option Nat)}
    (hphase : (b.state n).phase = .halting (some k :: rest)) :
    ∃ m, n ≤ m ∧ (b.state m).phase = .haltWaiting (some k) rest := by
  obtain ⟨m, hm, ⟨a, ha, hact⟩, hphase, -⟩ := hf.taken ((regular b n).halting.head_lt hphase)
    (by simp) hphase List.nil_prefix Worker.Accepting.step
    (fun _ hdone => Worker.accepting_of_done hdone) fun {s w} hphase hw hQ => by
      refine ⟨.pod .send, trivial, ?_⟩
      have hsome := System.trigger_isSome (p := { s with phase := .haltWaiting (some k) rest }) hw
        hQ.room (.halt .pod)
      simpa [PodTask.stepOpen, PodTask.step, hphase] using hsome
  have hs := worked_of_takes ha hact hphase
  refine ⟨m + 1, Nat.le_succ_of_le hm, ?_⟩
  generalize b.state (m + 1) = s' at hs ⊢
  cases hs with
  | haltWorker ht => cases ht <;> rfl

theorem Served.resolved (hf : Served b) {rest : List (Option Nat)}
    (hphase : (b.state n).phase = .haltWaiting (some k) rest) :
    ∃ m, n ≤ m ∧ (b.state m).phase = .halting rest := by
  obtain ⟨m, hm, ⟨a, ha, hact⟩, hphase, -⟩ := hf.taken ((regular b n).waiting k rest hphase)
    (by simp) hphase List.nil_prefix Worker.not_holdsToken_step Worker.not_holdsToken_of_done
    fun hphase hw hQ =>
      ⟨.pod .token, trivial, by simp [PodTask.stepOpen, PodTask.step, hphase, hw, hQ]⟩
  have hs := worked_of_takes ha hact hphase
  refine ⟨m + 1, Nat.le_succ_of_le hm, ?_⟩
  generalize b.state (m + 1) = s' at hs ⊢
  cases hs with
  | token => rfl

theorem Served.halts (hf : Served b) {rest : List (Option Nat)}
    (hphase : (b.state n).phase = .halting rest) : ∃ m, n ≤ m ∧ (b.state m).rxOpen = false := by
  induction rest generalizing n with
  | nil =>
    obtain ⟨m, hm, ⟨a, ha, hact⟩, hphase, -⟩ := hf.task.taken
      (fun ha h hs => keep_queue (q := []) (by simp) ha h hs)
      (fun h => ⟨.pod .send, trivial, by simp [machine, PodTask.stepOpen, PodTask.step, h.1]⟩)
      ⟨hphase, List.nil_prefix⟩
    have hs := worked_of_takes ha hact hphase
    refine ⟨m + 1, Nat.le_succ_of_le hm, ?_⟩
    generalize b.state (m + 1) = s' at hs ⊢
    cases hs with
    | halted => rfl
  | cons slot rest ih =>
    cases slot with
    | none =>
      have hhalting := (regular b n).halting
      simp only [Halting, hphase] at hhalting
      obtain ⟨j, hrest, -⟩ := hhalting
      have hm : none ∈ (b.state n).slotsFrom j := hrest ▸ List.mem_cons_self
      obtain ⟨i, -, hi⟩ := List.mem_map.mp hm
      cases hi
    | some k =>
      obtain ⟨m, hm, hphase⟩ := hf.told hphase
      obtain ⟨i, hi, hphase⟩ := hf.resolved hphase
      obtain ⟨j, hj, hended⟩ := ih hphase
      exact ⟨j, Nat.le_trans hm (Nat.le_trans hi hj), hended⟩

theorem Served.ends (hf : Served b) (h : (b.state n).halts = true) :
    ∃ m, n ≤ m ∧ (b.state m).rxOpen = false := by
  cases hphase : (b.state n).phase with
  | halting rest => exact hf.halts hphase
  | haltWaiting slot rest =>
    obtain ⟨k, rfl⟩ := (regular b n).halting.waits_for hphase
    obtain ⟨m, hm, hphase⟩ := hf.resolved hphase
    obtain ⟨i, hi, h⟩ := hf.halts hphase
    exact ⟨i, Nat.le_trans hm hi, h⟩
  | receiving | forwarding | ended => simp [PodTask.halts, hphase] at h

theorem Served.returns (hf : Served b) (hq : q <+: (b.state n).queue) :
    ∃ m, n ≤ m ∧ ((b.state m).rxOpen = false ∨
      (b.state m).phase = .receiving ∧ q <+: (b.state m).queue) := by
  cases hphase : (b.state n).phase with
  | receiving => exact ⟨n, Nat.le_refl n, .inr ⟨hphase, hq⟩⟩
  | forwarding k trigger =>
    obtain ⟨m, hm, h⟩ := hf.forwards hphase hq
    exact ⟨m, hm, .inr h⟩
  | halting | haltWaiting =>
    have hhalts : (b.state n).halts = true := by simp [PodTask.halts, hphase]
    obtain ⟨m, hm, h⟩ := hf.ends hhalts
    exact ⟨m, hm, .inl h⟩
  | ended => exact ⟨n, Nat.le_refl n, .inl (by simp [rxOpen, hphase])⟩

structure Receiving (s : PodTask) (q : List PodTrigger) : Prop where
  regular : s.Regular
  phase : s.phase = .receiving
  head : q <+: s.queue

theorem Receiving.keep {s s' : PodTask} {a : LocalAct} (ha : ¬ a.works)
    (h : s.Receiving (trigger :: q)) (hs : (start nWorkers).machine.step s a = some s') :
    s'.Receiving (trigger :: q) := by
  have hregular := h.regular.stepOpen hs
  have hhead := h.head
  cases stepOpen_sound hs with
  | send => exact ⟨hregular, h.phase, hhead.trans (List.prefix_append _ _)⟩
  | pod hs =>
    cases hs with
    | hangup phase queue => simp [queue] at hhead
    | worker => exact ⟨hregular, h.phase, hhead⟩
    | _ => exact absurd trivial ha

theorem Receiving.enabled {s : PodTask} (h : s.Receiving (trigger :: q)) :
    ∃ a : LocalAct, a.works ∧ ((start nWorkers).machine.step s a).isSome := by
  have hne : s.queue ≠ [] := fun hq => by simpa [hq] using h.head
  refine ⟨.pod .recv, trivial, ?_⟩
  have hsome := System.recv_isSome h.regular.slots h.phase hne
  simpa [machine, PodTask.stepOpen] using hsome

theorem Served.receives (hf : Served b) (hq : trigger :: q <+: (b.state n).queue) :
    ∃ m, n ≤ m ∧ ((b.state m).rxOpen = false ∨
      b.act m = some (.pod .recv) ∧ (b.state m).Receiving (trigger :: q)) := by
  obtain ⟨m, hm, hended | ⟨hphase, hq⟩⟩ := hf.returns hq
  · exact ⟨m, hm, .inl hended⟩
  obtain ⟨i, hi, ⟨a, ha, hact⟩, hr⟩ := hf.task.taken Receiving.keep Receiving.enabled
    ⟨regular b m, hphase, hq⟩
  have hs := worked_of_takes ha hact hr.phase
  refine ⟨i, Nat.le_trans hm hi, .inr ⟨?_, hr⟩⟩
  cases hs
  exact hact

theorem Served.received (hf : Served b) {pre : List PodTrigger}
    (hq : pre ++ trigger :: q <+: (b.state n).queue) :
    ∃ m, n ≤ m ∧ ((b.state m).rxOpen = false ∨
      b.act m = some (.pod .recv) ∧ (b.state m).Receiving (trigger :: q)) := by
  induction pre generalizing n with
  | nil => exact hf.receives hq
  | cons first pre ih =>
    obtain ⟨m, hm, hended | ⟨hact, hr⟩⟩ := hf.receives hq
    · exact ⟨m, hm, .inl hended⟩
    · obtain ⟨o, hs⟩ := step_of_pod hact
      obtain ⟨i, hi, h⟩ := ih (tail_of_recv (step_sound hs) hr.head)
      exact ⟨i, Nat.le_trans (Nat.le_succ_of_le hm) hi, h⟩

end Served

end PodTask

end Serverlessd
