import Serverlessd.Runtime.Pod.Slots

namespace Serverlessd

namespace PodTask

variable {p p' : PodTask} {a : PodAct} {o : PodOut} {worker r : Nat} {trigger : WorkerTrigger}

def handling (p : PodTask) : List Nat :=
  match p.phase with
  | .forwarding _ trigger => trigger.replies
  | _ => []

def queued (p : PodTask) : List Nat := p.queue.flatMap PodTrigger.replies

def working (p : PodTask) (r : Nat) : Nat := (p.tasks.map fun w => w.held r).sum

def held (p : PodTask) (r : Nat) : Nat := p.queued.count r + p.handling.count r + p.working r

theorem held_start (n : Nat) : (start n).held r = 0 := rfl

theorem held_of_handling {l : List Nat} (h : p.handling = l) :
    p.held r = p.queued.count r + l.count r + p.working r := by
  rw [held, h]

theorem working_setTask {w w' : Worker} (hw : p.tasks[worker]? = some w) :
    (p.setTask worker w').working r + w.held r = p.working r + w'.held r :=
  List.sum_map_set hw

theorem held_of_triggered (ht : Triggered p worker trigger p' o) :
    p'.held r + resolved o.replies r = p.held r + trigger.replies.count r := by
  cases ht with
  | dropped => simp
  | @sent w task rx room =>
    have hw := @working_setTask p worker r w { w with queue := w.queue ++ [trigger] } task
    have hheld := Worker.held_step (r := r) (@Worker.Step.push _ trigger rx room)
    simp only [Worker.pushed, resolved_nil] at hheld
    simp only [held, queued, handling, setTask, resolved_nil] at hw ⊢
    omega

theorem queued_of_head {event : PodTrigger} {queue : List PodTrigger} (h : p.queue = event :: queue) :
    p.queued = event.replies ++ queue.flatMap PodTrigger.replies := by
  simp [queued, h]

theorem held_of_head {event : PodTrigger} {queue : List PodTrigger} (h : p.queue = event :: queue)
    (he : event.replies = []) (hq : p'.queue = queue) (hh : p'.handling = p.handling)
    (hw : p'.working r = p.working r) : p'.held r = p.held r := by
  rw [held, held, queued_of_head h, he, hh, hw, queued, hq, List.nil_append]

theorem held_step (hs : Step p a p' o) : p'.held r + resolved o.replies r = p.held r := by
  cases hs with
  | checkVacancies phase head => exact held_of_head head rfl rfl rfl rfl
  | createWorker phase head =>
    refine held_of_head head rfl rfl rfl ?_
    simp [working, Worker.held, Worker.queued, Worker.handling, Repliers.held]
  | halt phase head =>
    exact held_of_head head rfl rfl (by simp only [handling, phase]) rfl
  | forward phase head slot =>
    have hp : p.handling = [] := by simp only [handling, phase]
    rw [held, held, queued_of_head head, hp, List.count_append, List.count_nil, resolved_nil]
    simp only [queued, handling, working, PodTrigger.replies]
    omega
  | unknown phase head slot =>
    rw [held, held, queued_of_head head, List.count_append, resolved_dropped]
    simp only [queued, handling, working, PodTrigger.replies, phase]
    omega
  | forwarded phase ht =>
    rw [held_of_triggered ht, held_of_handling (p := p) (by simp only [handling, phase]; rfl),
      held_of_handling (l := []) rfl]
    simp only [queued, working, List.count_nil]
    omega
  | haltWorker phase ht =>
    rw [held_of_triggered ht, held_of_handling (p := p) (l := []) (by simp only [handling, phase]),
      held_of_handling (l := []) rfl]
    rfl
  | haltEmpty phase | token phase | hangup phase =>
    rw [held_of_handling (l := []) rfl, held_of_handling (p := p) (l := [])
      (by simp only [handling, phase])]
    rfl
  | halted phase =>
    rw [held_of_handling (l := []) rfl, held_of_handling (p := p) (l := [])
      (by simp only [handling, phase]), resolved_dropped]
    simp only [queued, working, List.flatMap_nil, List.count_nil]
    omega
  | @worker worker b w w' wo task runs hw =>
    have hset := @working_setTask p worker r w w' task
    have hheld := Worker.held_step (r := r) hw
    rw [runs_push runs, List.count_nil] at hheld
    simp only [held, queued, handling, setTask] at hset ⊢
    omega

theorem Moved.held {w w' : Worker} (h : Moved a o worker w w') :
    w.held r ≤ w'.held r + resolved o.replies r := by
  cases h with
  | same => omega
  | stepped hw replies =>
    have hheld := Worker.held_step (r := r) hw
    rw [replies] at hheld
    omega

theorem Moved.fulfilledWith {w w' : Worker} (h : Moved a o worker w w') {body : String}
    (hf : w.FulfilledWith r body) : w'.FulfilledWith r body := by
  cases h with
  | same => exact hf
  | stepped hw => exact hf.mono (Worker.extends_step hw)

theorem held_of_delivered (hs : Step p a p' o) (hd : (r, worker) ∈ o.delivered) :
    ∃ w', p'.tasks[worker]? = some w' ∧ 0 < w'.held r := by
  have htrigger : ∀ {q : PodTask} {target : Nat} {t : WorkerTrigger}, Triggered q target t p' o →
      ∃ w', p'.tasks[worker]? = some w' ∧ 0 < w'.held r := by
    intro q target t ht
    cases ht with
    | dropped => cases hd
    | @sent w task rx room =>
      obtain ⟨r', hr, heq⟩ := List.mem_map.mp hd
      cases heq
      refine ⟨_, List.getElem?_set_self (List.getElem?_eq_some_iff.mp task).1, ?_⟩
      have hheld := Worker.held_step (r := r) (@Worker.Step.push _ t rx room)
      have hpos : 0 < t.replies.count r := List.count_pos_iff.mpr hr
      simp only [Worker.pushed, resolved_nil] at hheld
      omega
  cases hs with
  | forwarded phase h => exact htrigger h
  | haltWorker phase h => exact htrigger h
  | _ => cases hd

def Sound (p : PodTask) : Prop := ∀ w ∈ p.tasks, w.Linked ∧ w.Matched ∧ w.Vacated

theorem Sound.step (h : p.Sound) (hs : Step p a p' o) (ha : ∀ worker, a ≠ .worker worker .cancel) :
    p'.Sound := by
  intro w' hw'
  obtain ⟨worker, hw'⟩ := List.mem_iff_getElem?.mp hw'
  obtain ⟨w, hw, hm⟩ | ⟨-, hnew⟩ := started_of_step hs hw'
  · obtain ⟨hl, hmatch, hv⟩ := h w (List.mem_of_getElem? hw)
    cases hm with
    | same => exact ⟨hl, hmatch, hv⟩
    | stepped hstep _ cancel =>
      exact ⟨hl.step hstep, hmatch.step hl hstep, hv.step hl (fun hb => ha worker (cancel hb)) hstep⟩
  · rw [hnew]
    exact ⟨Worker.linked_init _, Worker.matched_init _, Worker.vacated_init _⟩

theorem Sound.fulfilledWith (h : p.Sound) (hs : Step p a p' o) {body : String}
    (hr : (r, some body) ∈ o.replies) :
    body = "" ∨ ∃ (worker : Nat) (w' : Worker),
      p'.tasks[worker]? = some w' ∧ w'.FulfilledWith r body := by
  cases hs with
  | @worker target b w w' wo task runs hw =>
    obtain ⟨hl, hmatch, -⟩ := h w (List.mem_of_getElem? task)
    refine (Worker.fulfilledWith_of_reply hmatch hl hw hr).imp_right fun hf => ⟨target, w', ?_, hf⟩
    exact List.getElem?_set_self (List.getElem?_eq_some_iff.mp task).1
  | forwarded phase ht => cases ht <;> simp [Worker.dropped] at hr
  | haltWorker phase ht => cases ht <;> simp [Worker.dropped] at hr
  | _ => simp [Worker.dropped] at hr

end PodTask

end Serverlessd
