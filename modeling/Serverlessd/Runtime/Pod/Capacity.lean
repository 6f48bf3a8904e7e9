import Serverlessd.Runtime.Pod.Slots

namespace Serverlessd

namespace PodTask

variable {p p' : PodTask} {a : PodAct} {o : PodOut} {n : Nat}

def running (p : PodTask) : Nat := p.tasks.countP Worker.rxOpen

def asking (p : PodTask) : Nat := p.queue.count .checkVacancies

structure Calm (p : PodTask) : Prop where
  queue : .halt ∉ p.queue
  phase : p.phase = .receiving ∨ ∃ worker trigger, p.phase = .forwarding worker trigger

structure Bounded (n : Nat) (p : PodTask) : Prop where
  capacity : p.pod.capacity = n
  started : p.tasks.length ≤ n
  creating : p.creating ≠ [] → p.tasks.length < n

theorem bounded_start (n : Nat) : (start n).Bounded n :=
  ⟨rfl, Nat.zero_le n, fun h => absurd rfl h⟩

theorem calm_start (n : Nat) : (start n).Calm :=
  ⟨by simp [start], .inl rfl⟩

theorem Calm.rxOpen (h : p.Calm) : p.rxOpen = true := by
  obtain hp | ⟨worker, trigger, hp⟩ := h.phase <;> simp [PodTask.rxOpen, hp]

theorem Calm.workers (h : p.Calm) (hs : p.Slots) :
    p.pod.workers = (List.range p.tasks.length).map some := by
  refine hs.workers.resolve_right fun ⟨_, hr, hf⟩ => ?_
  obtain hp | ⟨worker, trigger, hp⟩ := h.phase
  · exact hr hp
  · exact hf _ _ hp

theorem Calm.hasVacancy_iff (h : p.Calm) (hs : p.Slots) (hb : p.Bounded n) :
    p.pod.hasVacancy = true ↔ p.tasks.length < n := by
  rw [Pod.hasVacancy_of_no_vacancies hs.vacancies, hb.capacity, h.workers hs]
  simp

theorem Calm.push (h : p.Calm) {t : PodTrigger} (ht : t ≠ .halt) :
    ({ p with queue := p.queue ++ [t] } : PodTask).Calm :=
  ⟨by simpa [h.queue] using ht.symm, h.phase⟩

theorem Calm.step (h : p.Calm) (hs : Step p a p' o) (ha : a ≠ .hangup) : p'.Calm := by
  have hq : .halt ∉ p'.queue := fun hm => h.queue (queue_of_step hs hm)
  have hcalm := h.phase
  refine ⟨hq, ?_⟩
  cases hs with
  | checkVacancies | createWorker | unknown | worker => exact hcalm
  | forward => exact .inr ⟨_, _, rfl⟩
  | halt phase head => exact absurd (head ▸ List.mem_cons_self) h.queue
  | forwarded phase ht => cases ht <;> exact .inl rfl
  | haltWorker phase | haltEmpty phase | halted phase | token phase => simp [phase] at hcalm
  | hangup => exact absurd rfl ha

theorem tasks_length_of_step (hs : Step p a p' o) :
    p'.tasks.length = p.tasks.length ∨
      p.creating ≠ [] ∧ ∃ id, o.reply = some (.worker id) := by
  cases hs with
  | createWorker phase head => exact .inr ⟨by simp [PodTask.creating, head], _, rfl⟩
  | forwarded phase h => cases h <;> simp [setTask]
  | haltWorker phase h => cases h <;> simp [setTask]
  | worker => simp [setTask]
  | _ => exact .inl rfl

theorem creating_nil_of_step (hs : Step p a p' o) (hslots : p.Slots) (h : p.creating = []) :
    p'.creating = [] := by
  by_cases hr : ∃ id, o.reply = some (.worker id)
  · obtain ⟨id, hr⟩ := hr
    obtain ⟨w, -, hc⟩ := hslots.created_of_step hs hr
    simp [h] at hc
  · exact (creating_of_step hs fun id hid => hr ⟨id, hid⟩).elim (·.trans h) id

theorem Bounded.congr (h : p.Bounded n) (hcap : p'.pod.capacity = p.pod.capacity)
    (hlen : p'.tasks.length = p.tasks.length) (hc : p'.creating ≠ [] → p.creating ≠ []) :
    p'.Bounded n :=
  ⟨hcap.trans h.capacity, hlen ▸ h.started, fun hne => hlen ▸ h.creating (hc hne)⟩

theorem Bounded.step (h : p.Bounded n) (hslots : p.Slots) (hc : p.creating.length ≤ 1)
    (hs : Step p a p' o) : p'.Bounded n := by
  have hcreating : p'.creating ≠ [] → p.creating ≠ [] :=
    fun hne hnil => hne (creating_nil_of_step hs hslots hnil)
  cases hs with
  | @createWorker queue task pod id phase head created =>
    obtain ⟨-, rfl⟩ := hslots.createWorker phase created
    have hhead : p.creating = task.call :: ({ p with queue := queue } : PodTask).creating := by
      simp [PodTask.creating, head]
    have hlt := h.creating (by simp [hhead])
    have hroom : p.pod.workers.length < p.pod.capacity := by
      simpa [hslots.workers_of_receiving phase, h.capacity] using hlt
    have hnil : ({ p with queue := queue } : PodTask).creating = [] := by
      simpa [hhead] using hc
    refine ⟨(Pod.push_capacity hroom _).trans h.capacity, ?_, fun hne => absurd hnil hne⟩
    simpa using Nat.succ_le_of_lt hlt
  | forwarded phase ht => cases ht <;> exact h.congr rfl (by simp [setTask]) hcreating
  | haltWorker phase ht => cases ht <;> exact h.congr rfl (by simp [setTask]) hcreating
  | worker => exact h.congr rfl (by simp [setTask]) hcreating
  | _ => exact h.congr rfl rfl hcreating

theorem Bounded.push (h : p.Bounded n) {t : PodTrigger}
    (ht : ∀ task, t = .createWorker task → p.tasks.length < n) :
    ({ p with queue := p.queue ++ [t] } : PodTask).Bounded n := by
  refine ⟨h.capacity, h.started, fun hne => ?_⟩
  cases t with
  | createWorker task => exact ht task rfl
  | checkVacancies | toWorker | halt => exact h.creating (by simpa [PodTask.creating] using hne)

theorem Bounded.running_le (h : p.Bounded n) : p.running ≤ n :=
  List.countP_le_length.trans h.started

theorem Bounded.recovers_iff (h : p.Bounded n) (hs : p.Slots) :
    (p.running < n → p.pod.hasVacancy = true) ↔
      (p.pod.workers.length = n → ∀ w ∈ p.tasks, w.rxOpen = true) := by
  rw [Pod.hasVacancy_of_no_vacancies hs.vacancies, h.capacity]
  have hle := h.running_le
  have hall : (∀ w ∈ p.tasks, w.rxOpen = true) ↔ p.running = p.tasks.length :=
    List.countP_eq_length.symm
  rw [hall]
  have hrun : p.running ≤ p.tasks.length := List.countP_le_length
  have hstarted := h.started
  obtain hw | ⟨hw, -⟩ := hs.workers
  · simp only [hw, List.length_map, List.length_range]
    omega
  · simp only [hw, List.length_nil]
    omega

theorem vacancy_of_step (hs : Step p a p' o) {b : Bool} (hr : o.reply = some (.vacancy b)) :
    b = p.pod.hasVacancy ∧ p.asking = p'.asking + 1 ∧ p'.tasks = p.tasks := by
  cases replied_of_step hs hr with
  | vacancy head => exact ⟨rfl, by simp [asking, head], rfl⟩

theorem asking_of_step (hs : Step p a p' o) : p'.asking ≤ p.asking := by
  cases hs with
  | checkVacancies phase head | createWorker phase head | forward phase head | unknown phase head
  | halt phase head => simp [asking, head]
  | forwarded phase h => cases h <;> exact Nat.le_refl _
  | haltWorker phase h => cases h <;> exact Nat.le_refl _
  | haltEmpty | token | hangup | worker => exact Nat.le_refl _
  | halted => exact Nat.zero_le _

theorem asking_push (h : p.asking = 0) {t : PodTrigger} :
    ({ p with queue := p.queue ++ [t] } : PodTask).asking = 0 ∨
      ({ p with queue := p.queue ++ [t] } : PodTask).asking = 1 ∧ t = .checkVacancies := by
  have hcount : ({ p with queue := p.queue ++ [t] } : PodTask).asking =
      p.asking + [t].count .checkVacancies := List.count_append
  rw [hcount, h]
  cases t <;> simp

end PodTask

end Serverlessd
