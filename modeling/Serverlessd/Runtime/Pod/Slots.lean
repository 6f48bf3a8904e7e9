import Mathlib.Data.List.Range
import Serverlessd.Runtime.Pod.TaskLaws
import Serverlessd.Runtime.Worker.Replies

namespace Serverlessd

def PodOut.brings (o : PodOut) (worker : Nat) : List Nat :=
  (o.delivered.filter fun d => d.2 = worker).map Prod.fst

theorem PodOut.mem_brings {o : PodOut} {r worker : Nat} :
    r ∈ o.brings worker ↔ (r, worker) ∈ o.delivered := by
  simp [brings]

namespace PodTask

variable {p p' : PodTask} {a : PodAct} {o : PodOut} {worker : Nat} {trigger : WorkerTrigger}

structure Slots (p : PodTask) : Prop where
  vacancies : p.pod.vacancies = []
  workers : p.pod.workers = (List.range p.tasks.length).map some ∨
    p.pod.workers = [] ∧ p.phase ≠ .receiving ∧ ∀ worker trigger, p.phase ≠ .forwarding worker trigger
  closed : p.rxOpen = false → p.queue = []

theorem slots_start (nWorkers : Nat) : (start nWorkers).Slots :=
  ⟨rfl, .inl rfl, by simp [start, rxOpen]⟩

theorem Slots.workers_of_receiving (h : p.Slots) (hp : p.phase = .receiving) :
    p.pod.workers = (List.range p.tasks.length).map some :=
  h.workers.resolve_right fun hn => hn.2.1 hp

theorem Slots.getWorker (h : p.Slots) (hp : p.phase = .receiving) {id : Nat}
    (hs : p.pod.getWorker id = some worker) : worker = id ∧ id < p.tasks.length := by
  simp only [Pod.getWorker, h.workers_of_receiving hp, List.getElem?_map, Option.join_eq_some_iff,
    Option.map_eq_some_iff, Option.some.injEq] at hs
  obtain ⟨i, hi, rfl⟩ := hs
  obtain ⟨hlt, hi⟩ := List.getElem?_eq_some_iff.mp hi
  simp only [List.length_range] at hlt
  simp only [List.getElem_range] at hi
  exact ⟨hi.symm, hlt⟩

theorem Slots.createWorker (h : p.Slots) (hp : p.phase = .receiving) {pod : Pod Nat} {id : Nat}
    (hc : p.pod.createWorker p.tasks.length = some (pod, id)) :
    id = p.tasks.length ∧ pod = p.pod.push (some p.tasks.length) := by
  rw [Pod.createWorker_of_no_vacancies h.vacancies] at hc
  cases hc
  simp [h.workers_of_receiving hp]

theorem Slots.triggered (h : p.Slots) (ht : Triggered p worker trigger p' o) : p'.Slots := by
  cases ht with
  | dropped => exact h
  | sent task rx room =>
    refine ⟨h.vacancies, ?_, h.closed⟩
    simpa [setTask] using h.workers

theorem rxOpen_of_phase (h : p.phase ≠ .ended) : p.rxOpen = true := by simpa [rxOpen] using h

theorem rxOpen_of_step (hs : Step p a p' o) (hr : p'.rxOpen = true) : p.rxOpen = true := by
  cases hs with
  | halted | hangup => cases hr
  | worker => exact hr
  | checkVacancies phase | createWorker phase | forward phase | unknown phase | halt phase
  | forwarded phase | haltWorker phase | haltEmpty phase | token phase => simp [rxOpen, phase]

theorem Slots.of_open (hv : p.pod.vacancies = []) (hp : p.phase ≠ .ended)
    (hw : p.pod.workers = (List.range p.tasks.length).map some ∨
      p.pod.workers = [] ∧ p.phase ≠ .receiving ∧
        ∀ worker trigger, p.phase ≠ .forwarding worker trigger) : p.Slots :=
  ⟨hv, hw, fun hc => by simp [rxOpen_of_phase hp] at hc⟩

theorem Slots.step (h : p.Slots) (hs : Step p a p' o) : p'.Slots := by
  cases hs with
  | checkVacancies phase | unknown phase =>
    exact .of_open h.vacancies (by simp [phase]) (.inl (h.workers_of_receiving phase))
  | createWorker phase head created =>
    obtain ⟨rfl, rfl⟩ := h.createWorker phase created
    refine .of_open h.vacancies (by simp [phase]) (.inl ?_)
    simp [Pod.push, h.workers_of_receiving phase, List.range_succ]
  | forward phase head slot =>
    exact .of_open h.vacancies (by simp) (.inl (h.workers_of_receiving phase))
  | halt phase head => exact .of_open h.vacancies (by simp) (.inr ⟨rfl, by simp, by simp⟩)
  | forwarded phase ht =>
    refine Slots.triggered (p := { p with phase := .receiving }) ?_ ht
    exact .of_open h.vacancies (by simp) (.inl (h.workers.resolve_right fun hn => hn.2.2 _ _ phase))
  | @haltWorker _ _ worker rest phase ht =>
    refine Slots.triggered (p := { p with phase := .haltWaiting (some worker) rest }) ?_ ht
    exact .of_open h.vacancies (by simp) (h.workers.imp_right fun hn => ⟨hn.1, by simp, by simp⟩)
  | haltEmpty phase | token phase =>
    refine .of_open h.vacancies (by simp) ?_
    exact h.workers.imp_right fun hn => ⟨hn.1, by simp, by simp⟩
  | halted phase =>
    exact ⟨h.vacancies, h.workers.imp_right fun hn => ⟨hn.1, by simp, by simp⟩, fun _ => rfl⟩
  | hangup phase queue =>
    exact ⟨h.vacancies, .inl (h.workers_of_receiving phase), fun _ => queue⟩
  | worker task runs hw =>
    refine ⟨h.vacancies, ?_, h.closed⟩
    simpa [setTask] using h.workers

theorem queue_of_step (hs : Step p a p' o) {t : PodTrigger} (ht : t ∈ p'.queue) : t ∈ p.queue := by
  cases hs with
  | checkVacancies phase head | createWorker phase head | forward phase head | unknown phase head
  | halt phase head =>
    rw [head]
    exact List.mem_cons_of_mem _ ht
  | forwarded phase h => cases h <;> exact ht
  | haltWorker phase h => cases h <;> exact ht
  | haltEmpty | token | hangup | worker => exact ht
  | halted => simp at ht

theorem Slots.forwarding_of_step (h : p.Slots) (hs : Step p a p' o)
    (hp : p'.phase = .forwarding worker trigger) :
    p.phase = .forwarding worker trigger ∨ .toWorker worker trigger ∈ p.queue := by
  cases hs with
  | checkVacancies phase | createWorker phase | unknown phase => simp [phase] at hp
  | forward phase head slot =>
    obtain ⟨rfl, -⟩ := h.getWorker phase slot
    cases hp
    exact .inr (head ▸ List.mem_cons_self)
  | forwarded phase h => cases h <;> simp [setTask] at hp
  | haltWorker phase h => cases h <;> simp [setTask] at hp
  | halt | haltEmpty | token | halted | hangup => simp at hp
  | worker => exact .inl hp

/-- What a step of the pod is for the worker in its place `worker`: a step of that worker,
or nothing. -/
inductive Moved (a : PodAct) (o : PodOut) (worker : Nat) (w : Worker) : Worker → Prop
  | same (rests : o.brings worker = []) : Moved a o worker w w
  | stepped {b : WorkerAct} {w' : Worker} {wo : WorkerOut} (h : Worker.Step w b w' wo)
      (replies : wo.replies = o.replies) (cancel : b = .cancel → a = .worker worker .cancel)
      (pushed : o.brings worker = Worker.pushed b) : Moved a o worker w w'

theorem runs_push {b : WorkerAct} (hr : p.runs b = true) : Worker.pushed b = [] := by
  cases b <;> first | rfl | cases hr

theorem moved_of_triggered {target : Nat} (ht : Triggered p target trigger p' o) {w : Worker}
    (hw : p.tasks[worker]? = some w) : ∃ w', p'.tasks[worker]? = some w' ∧ Moved a o worker w w' := by
  cases ht with
  | dropped => exact ⟨w, hw, .same rfl⟩
  | @sent v task rx room =>
    by_cases hi : target = worker
    · subst hi
      obtain rfl : v = w := Option.some.inj (task.symm.trans hw)
      refine ⟨_, List.getElem?_set_self (List.getElem?_eq_some_iff.mp hw).1, ?_⟩
      refine .stepped (@Worker.Step.push _ trigger rx room) rfl (by nofun) ?_
      simp [PodOut.brings, Worker.pushed, List.filter_map, Function.comp_def]
    · refine ⟨w, by rwa [setTask, List.getElem?_set_ne hi], .same ?_⟩
      simp [PodOut.brings, List.filter_map, Function.comp_def, hi]

theorem moved_of_step (hs : Step p a p' o) {w : Worker} (hw : p.tasks[worker]? = some w) :
    ∃ w', p'.tasks[worker]? = some w' ∧ Moved a o worker w w' := by
  cases hs with
  | createWorker =>
    exact ⟨w, by rwa [List.getElem?_append_left (List.getElem?_eq_some_iff.mp hw).1], .same rfl⟩
  | forwarded phase h => exact moved_of_triggered h hw
  | haltWorker phase h => exact moved_of_triggered h hw
  | @worker target b v v' wo task runs h =>
    by_cases hi : target = worker
    · subst hi
      obtain rfl : v = w := Option.some.inj (task.symm.trans hw)
      refine ⟨v', List.getElem?_set_self (List.getElem?_eq_some_iff.mp hw).1, ?_⟩
      exact .stepped h rfl (fun hb => hb ▸ rfl) (runs_push runs).symm
    · exact ⟨w, by rwa [setTask, List.getElem?_set_ne hi], .same rfl⟩
  | checkVacancies | forward | unknown | halt | haltEmpty | token | halted | hangup =>
    exact ⟨w, hw, .same rfl⟩

theorem length_of_triggered {target : Nat} (ht : Triggered p target trigger p' o) :
    p'.tasks.length = p.tasks.length := by
  cases ht <;> simp [setTask]

theorem started_of_step (hs : Step p a p' o) {w' : Worker} (hw : p'.tasks[worker]? = some w') :
    (∃ w, p.tasks[worker]? = some w ∧ Moved a o worker w w') ∨
      .createWorker w'.task ∈ p.queue ∧ w' = { task := w'.task } := by
  have hold : worker < p.tasks.length → ∃ w, p.tasks[worker]? = some w ∧ Moved a o worker w w' := by
    intro hlt
    obtain ⟨v, hv, hm⟩ := moved_of_step hs (List.getElem?_eq_getElem hlt)
    obtain rfl : v = w' := Option.some.inj (hv.symm.trans hw)
    exact ⟨_, List.getElem?_eq_getElem hlt, hm⟩
  have hlt := (List.getElem?_eq_some_iff.mp hw).1
  cases hs with
  | createWorker phase head =>
    obtain hw | ⟨-, rfl⟩ := List.getElem?_concat_eq_some.mp hw
    · exact .inl (hold (List.getElem?_eq_some_iff.mp hw).1)
    · exact .inr ⟨head ▸ List.mem_cons_self, rfl⟩
  | forwarded phase h => exact .inl (hold (by simpa [length_of_triggered h] using hlt))
  | haltWorker phase h => exact .inl (hold (by simpa [length_of_triggered h] using hlt))
  | worker => exact .inl (hold (by simpa [setTask] using hlt))
  | checkVacancies | forward | unknown | halt | haltEmpty | token | halted | hangup =>
    exact .inl (hold hlt)

theorem Moved.task {w w' : Worker} (h : Moved a o worker w w') : w'.task = w.task := by
  cases h with
  | same => rfl
  | stepped h => exact Worker.task_of_step h

theorem task_of_step (hs : Step p a p' o) {w : Worker} (hw : p.tasks[worker]? = some w) :
    ∃ w', p'.tasks[worker]? = some w' ∧ w'.task = w.task := by
  obtain ⟨w', hw', hm⟩ := moved_of_step hs hw
  exact ⟨w', hw', hm.task⟩

theorem mem_tasks_of_step (hs : Step p a p' o) {w' : Worker} (hw : w' ∈ p'.tasks) :
    (∃ w ∈ p.tasks, w.task = w'.task) ∨ .createWorker w'.task ∈ p.queue := by
  obtain ⟨worker, hw⟩ := List.mem_iff_getElem?.mp hw
  obtain ⟨w, hw, hm⟩ | ⟨hq, -⟩ := started_of_step hs hw
  · exact .inl ⟨w, List.mem_of_getElem? hw, hm.task.symm⟩
  · exact .inr hq

theorem delivered_of_step (hs : Step p a p' o) {d : Nat × Nat} (hd : d ∈ o.delivered) :
    ∃ trigger, p.phase = .forwarding d.2 trigger ∧ d.1 ∈ trigger.replies ∧
      d.2 < p'.tasks.length := by
  cases hs with
  | @forwarded _ _ worker trigger phase h =>
    cases h with
    | sent task =>
      obtain ⟨r, hr, rfl⟩ := List.mem_map.mp hd
      refine ⟨trigger, phase, hr, ?_⟩
      simpa [setTask] using (List.getElem?_eq_some_iff.mp task).1
    | dropped => cases hd
  | haltWorker phase h => cases h <;> simp [WorkerTrigger.replies] at hd
  | _ => cases hd

theorem held_of_step (hs : Step p a p' o) {w' : Worker} {r : Nat}
    (hw : p'.tasks[worker]? = some w') (hr : 0 < w'.held r) :
    (∃ w, p.tasks[worker]? = some w ∧ 0 < w.held r) ∨ (r, worker) ∈ o.delivered := by
  obtain ⟨w, hw, hm⟩ | ⟨-, hnew⟩ := started_of_step hs hw
  · cases hm with
    | same => exact .inl ⟨_, hw, hr⟩
    | @stepped b _ wo h replies cancel pushed =>
      have hheld := Worker.held_step (r := r) h
      by_cases hp : r ∈ Worker.pushed b
      · exact .inr (PodOut.mem_brings.mp (pushed.symm ▸ hp))
      · rw [List.count_eq_zero.mpr hp] at hheld
        exact .inl ⟨w, hw, by omega⟩
  · rw [hnew] at hr
    simp [Worker.held, Worker.queued, Worker.handling, Repliers.held] at hr

theorem answered_of_step (hs : Step p a p' o) {r : Nat} {body : String}
    (hr : (r, some body) ∈ o.replies) :
    ∃ (worker : Nat) (w : Worker), p.tasks[worker]? = some w ∧ 0 < w.held r := by
  cases hs with
  | @worker target b w v wo task runs h =>
    have hheld := Worker.held_step (r := r) h
    have hpos : 0 < resolved wo.replies r :=
      List.count_pos_iff.mpr (List.mem_map.mpr ⟨_, hr, rfl⟩)
    rw [runs_push runs, List.count_nil] at hheld
    exact ⟨target, w, task, by omega⟩
  | forwarded phase h => cases h <;> simp [Worker.dropped] at hr
  | haltWorker phase h => cases h <;> simp [Worker.dropped] at hr
  | _ => simp [Worker.dropped] at hr

def creating (p : PodTask) : List Nat :=
  p.queue.filterMap fun
    | .createWorker task => some task.call
    | _ => none

theorem Slots.created_of_step (h : p.Slots) (hs : Step p a p' o) {id : Nat}
    (hr : o.reply = some (.worker id)) :
    ∃ w, p'.tasks[id]? = some w ∧ p.creating = w.task.call :: p'.creating := by
  cases replied_of_step hs hr with
  | @worker queue task pod _ phase head created =>
    obtain ⟨rfl, -⟩ := h.createWorker phase created
    exact ⟨{ task }, by simp, by simp [creating, head]⟩

theorem Slots.id_of_step (h : p.Slots) (hs : Step p a p' o) {id : Nat}
    (hr : o.reply = some (.worker id)) : id = p.tasks.length := by
  cases replied_of_step hs hr with
  | worker phase head created => exact (h.createWorker phase created).1

theorem creating_of_step (hs : Step p a p' o) (hr : ∀ id, o.reply ≠ some (.worker id)) :
    p'.creating = p.creating ∨ p'.creating = [] := by
  cases hs with
  | createWorker => exact absurd rfl (hr _)
  | checkVacancies phase head | forward phase head | unknown phase head | halt phase head =>
    exact .inl (by simp [creating, head])
  | forwarded phase h => cases h <;> exact .inl rfl
  | haltWorker phase h => cases h <;> exact .inl rfl
  | haltEmpty | token | hangup | worker => exact .inl rfl
  | halted => exact .inr rfl

end PodTask

end Serverlessd
