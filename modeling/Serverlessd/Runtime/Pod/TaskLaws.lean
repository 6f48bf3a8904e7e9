import Serverlessd.Runtime.Pod.Task
import Serverlessd.Runtime.Worker.TaskLaws

namespace Serverlessd

namespace PodTask

def setTask (p : PodTask) (worker : Nat) (w : Worker) : PodTask :=
  { p with tasks := p.tasks.set worker w }

inductive Triggered (p : PodTask) (worker : Nat) (trigger : WorkerTrigger) :
    PodTask → PodOut → Prop
  | sent {w : Worker} (task : p.tasks[worker]? = some w) (rx : w.rxOpen = true)
      (room : w.queue.length < workerCapacity) :
      Triggered p worker trigger (p.setTask worker { w with queue := w.queue ++ [trigger] })
        { delivered := trigger.replies.map fun r => (r, worker) }
  | dropped {w : Worker} (task : p.tasks[worker]? = some w) (rx : w.rxOpen = false) :
      Triggered p worker trigger p { replies := Worker.dropped trigger.replies }

inductive Step : PodTask → PodAct → PodTask → PodOut → Prop
  | checkVacancies {p : PodTask} {queue : List PodTrigger} (phase : p.phase = .receiving)
      (head : p.queue = .checkVacancies :: queue) :
      Step p .recv { p with queue := queue } { reply := some (.vacancy p.pod.hasVacancy) }
  | createWorker {p : PodTask} {queue : List PodTrigger} {task : WorkerTask} {pod : Pod Nat}
      {id : Nat} (phase : p.phase = .receiving) (head : p.queue = .createWorker task :: queue)
      (created : p.pod.createWorker p.tasks.length = some (pod, id)) :
      Step p .recv { p with queue := queue, pod := pod, tasks := p.tasks ++ [{ task := task }] }
        { reply := some (.worker id) }
  | forward {p : PodTask} {queue : List PodTrigger} {id worker : Nat} {trigger : WorkerTrigger}
      (phase : p.phase = .receiving) (head : p.queue = .toWorker id trigger :: queue)
      (slot : p.pod.getWorker id = some worker) :
      Step p .recv { p with queue := queue, phase := .forwarding worker trigger } {}
  | unknown {p : PodTask} {queue : List PodTrigger} {id : Nat} {trigger : WorkerTrigger}
      (phase : p.phase = .receiving) (head : p.queue = .toWorker id trigger :: queue)
      (slot : p.pod.getWorker id = none) :
      Step p .recv { p with queue := queue } { replies := Worker.dropped trigger.replies }
  | halt {p : PodTask} {queue : List PodTrigger} (phase : p.phase = .receiving)
      (head : p.queue = .halt :: queue) :
      Step p .recv { p with
        queue := queue, pod := { p.pod with workers := [] }, phase := .halting p.pod.workers } {}
  | forwarded {p p' : PodTask} {o : PodOut} {worker : Nat} {trigger : WorkerTrigger}
      (phase : p.phase = .forwarding worker trigger)
      (h : Triggered { p with phase := .receiving } worker trigger p' o) : Step p .send p' o
  | haltWorker {p p' : PodTask} {o : PodOut} {worker : Nat} {rest : List (Option Nat)}
      (phase : p.phase = .halting (some worker :: rest))
      (h : Triggered { p with phase := .haltWaiting (some worker) rest } worker (.halt .pod) p' o) :
      Step p .send p' o
  | haltEmpty {p : PodTask} {rest : List (Option Nat)} (phase : p.phase = .halting (none :: rest)) :
      Step p .send { p with phase := .haltWaiting none rest } {}
  | halted {p : PodTask} (phase : p.phase = .halting []) :
      Step p .send { p with phase := .ended, queue := [] }
        { reply := some .halted, replies := Worker.dropped (p.queue.flatMap PodTrigger.replies) }
  | token {p : PodTask} {worker : Nat} {rest : List (Option Nat)}
      (phase : p.phase = .haltWaiting (some worker) rest)
      (resolved : ∀ w ∈ p.tasks[worker]?, w.holdsToken .pod = false) :
      Step p .token { p with phase := .halting rest } {}
  | hangup {p : PodTask} (phase : p.phase = .receiving) (queue : p.queue = []) :
      Step p .hangup { p with phase := .ended } {}
  | worker {p : PodTask} {worker : Nat} {a : WorkerAct} {w w' : Worker} {o : WorkerOut}
      (task : p.tasks[worker]? = some w) (runs : p.runs a = true) (h : Worker.Step w a w' o) :
      Step p (.worker worker a) (p.setTask worker w') { replies := o.replies }

variable {p p' : PodTask} {a : PodAct} {o : PodOut} {worker : Nat} {trigger : WorkerTrigger}

theorem trigger_sound (h : p.trigger worker trigger = some (p', o)) :
    Triggered p worker trigger p' o := by
  unfold PodTask.trigger at h
  split at h
  · cases h
  · rename_i w hw
    split at h
    · rename_i hrx
      obtain ⟨⟨w', wo⟩, hs, heq⟩ := Option.map_eq_some_iff.mp h
      obtain ⟨⟨-, hroom⟩, hs⟩ := Option.ite_none_right_eq_some.mp hs
      cases hs
      cases heq
      exact .sent hw hrx hroom
    · rename_i hrx
      cases h
      exact .dropped hw (Bool.not_eq_true _ ▸ hrx)

theorem step_sound (h : p.step a = some (p', o)) : Step p a p' o := by
  cases a with
  | recv =>
    simp only [step] at h
    split at h
    · rename_i event queue hp hq
      unfold PodTask.recv at h
      cases event with
      | checkVacancies =>
        cases h
        exact .checkVacancies hp hq
      | createWorker task =>
        obtain ⟨⟨pod, id⟩, hc, heq⟩ := Option.map_eq_some_iff.mp h
        cases heq
        exact .createWorker hp hq hc
      | toWorker id trigger =>
        simp only at h
        split at h
        · cases h
          exact .forward hp hq ‹_›
        · cases h
          exact .unknown hp hq ‹_›
      | halt =>
        cases h
        exact .halt hp hq
    · cases h
  | send =>
    simp only [step] at h
    split at h
    · exact .forwarded ‹_› (trigger_sound h)
    · cases h
      exact .halted ‹_›
    · exact .haltWorker ‹_› (trigger_sound h)
    · cases h
      exact .haltEmpty ‹_›
    · cases h
  | token =>
    simp only [step] at h
    split at h
    · obtain ⟨hc, h⟩ := Option.ite_none_right_eq_some.mp h
      cases h
      refine .token ‹_› fun w hw => ?_
      simpa [Option.mem_def.mp hw] using hc
    · cases h
  | hangup =>
    obtain ⟨⟨hp, hq⟩, h⟩ := Option.ite_none_right_eq_some.mp h
    cases h
    exact .hangup hp hq
  | worker worker a =>
    simp only [step] at h
    split at h
    · obtain ⟨⟨w', wo⟩, hs, heq⟩ := Option.map_eq_some_iff.mp h
      cases heq
      exact .worker ‹_› ‹_› (Worker.step_sound hs)
    · cases h

inductive Replied (p : PodTask) : PodReply → PodTask → Prop
  | vacancy {queue : List PodTrigger} (head : p.queue = .checkVacancies :: queue) :
      Replied p (.vacancy p.pod.hasVacancy) { p with queue := queue }
  | worker {queue : List PodTrigger} {task : WorkerTask} {pod : Pod Nat} {id : Nat}
      (phase : p.phase = .receiving) (head : p.queue = .createWorker task :: queue)
      (created : p.pod.createWorker p.tasks.length = some (pod, id)) :
      Replied p (.worker id)
        { p with queue := queue, pod := pod, tasks := p.tasks ++ [{ task := task }] }
  | halted (phase : p.phase = .halting []) :
      Replied p .halted { p with phase := .ended, queue := [] }

theorem replied_of_step (hs : Step p a p' o) {reply : PodReply} (hr : o.reply = some reply) :
    Replied p reply p' := by
  cases hs with
  | checkVacancies phase head =>
    cases hr
    exact .vacancy head
  | createWorker phase head created =>
    cases hr
    exact .worker phase head created
  | halted phase =>
    cases hr
    exact .halted phase
  | forwarded phase h => cases h <;> cases hr
  | haltWorker phase h => cases h <;> cases hr
  | _ => cases hr

end PodTask

end Serverlessd
