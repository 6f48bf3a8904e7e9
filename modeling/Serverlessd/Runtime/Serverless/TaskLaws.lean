import Serverlessd.Runtime.Pod.TaskLaws
import Serverlessd.Runtime.Serverless.Task

namespace Serverlessd

def ServerlessPhase.serving : ServerlessPhase → Bool
  | halting _ | awaitingHalt _ | joining | closed => false
  | _ => true

theorem ServerlessPhase.serving_of_sends {phase next : ServerlessPhase} {idx : Nat}
    {trigger : PodTrigger} (h : phase.sends = some (idx, trigger, next)) :
    next.serving = phase.serving := by
  cases phase <;> cases h <;> rfl

namespace Runtime

def setPod (s : Runtime) (idx : Nat) (p : PodTask) : Runtime := { s with pods := s.pods.set idx p }

def given (s : Runtime) (idx : Nat) (o : PodOut) : Runtime :=
  { s with
    replies := s.replies ++ answers o.replies
    delivered := s.delivered ++ o.delivered.map fun (d : Nat × Nat) => (d.1, idx, d.2) }

theorem emit_eq (s : Runtime) (idx : Nat) (o : PodOut) :
    s.emit idx o = (s.given idx o).deliver o.reply := rfl

inductive Handled (s : Runtime) (io : Io) (call : Nat) : ServerlessTrigger → Runtime → Prop
  | unreadable {name : String} {reply : Nat}
      (source : (CodeStore.getWorkerCode s.fs io name).2 = none) :
      Handled s io call (.createWorker name reply)
        ((s.processed ⟨call, io, none, (CodeStore.getWorkerCode s.fs io name).1⟩).answer reply
          (.created none))
  | readable {name : String} {reply : Nat} {source : String}
      (read : (CodeStore.getWorkerCode s.fs io name).2 = some source) :
      Handled s io call (.createWorker name reply)
        { s.processed ⟨call, io, some source, (CodeStore.getWorkerCode s.fs io name).1⟩ with
          phase := .finding ⟨source, reply⟩ 0 }
  | forward {id : Nat} {trigger : PodTrigger} (pod : id < s.pods.length) :
      Handled s io call (.toPod id trigger)
        { s.processed ⟨call, io, none, s.fs⟩ with phase := .forwarding id trigger }
  | unknown {id : Nat} {trigger : PodTrigger} (pod : ¬ id < s.pods.length) :
      Handled s io call (.toPod id trigger) ((s.processed ⟨call, io, none, s.fs⟩).drop trigger.replies)
  | upload {name : String} {code : ByteArray} {reply : Nat} :
      Handled s io call (.uploadWorkerCode name code reply)
        ((s.processed ⟨call, io, none, (CodeStore.uploadWorkerCode s.fs io name code).1⟩).answer reply
          (.uploaded (err (CodeStore.uploadWorkerCode s.fs io name code).2)))
  | remove {name : String} :
      Handled s io call (.removeWorkerCode name)
        (s.processed ⟨call, io, none, CodeStore.removeWorkerCode s.fs io name⟩)

inductive Step : Runtime → RuntimeAct → Runtime → Prop
  | issue {s : Runtime} {client : Nat} {op : Op}
      (idle : ∀ c ∈ s.calls, c.client = client → c.status = .done) :
      Step s (.issue client op)
        ({ s with calls := s.calls ++ [(⟨client, op, .sending⟩ : Call)] }.record (.issued s.calls.length))
  | enqueue {s : Runtime} {call client : Nat} {op : Op}
      (sending : s.calls[call]? = some ⟨client, op, .sending⟩) (rx : s.rxOpen = true)
      (room : s.queue.length < serverlessCapacity) :
      Step s (.enqueue call)
        (({ s with queue := s.queue ++ [(call, op.trigger call)] }.setStatus call .waiting).record
          (.sent call))
  | refuse {s : Runtime} {call client : Nat} {op : Op}
      (sending : s.calls[call]? = some ⟨client, op, .sending⟩) (rx : s.rxOpen = false) :
      Step s (.refuse call)
        (((s.setStatus call .done).answer call .dropped).record (.returned call .dropped))
  | abandonSending {s : Runtime} {call client : Nat} {op : Op}
      (sending : s.calls[call]? = some ⟨client, op, .sending⟩) :
      Step s (.abandon call)
        (((s.setStatus call .done).answer call .dropped).record (.abandoned call))
  | abandonWaiting {s : Runtime} {call client : Nat} {op : Op}
      (waiting : s.calls[call]? = some ⟨client, op, .waiting⟩) :
      Step s (.abandon call) ((s.setStatus call .done).record (.abandoned call))
  | ret {s : Runtime} {call client : Nat} {op : Op} {a : Answer}
      (waiting : s.calls[call]? = some ⟨client, op, .waiting⟩)
      (ready : s.answerOf call op = some a) :
      Step s (.ret call) ((s.setStatus call .done).record (.returned call a))
  | recv {s s' : Runtime} {io : Io} {call : Nat} {trigger : ServerlessTrigger}
      {queue : List (Nat × ServerlessTrigger)} (phase : s.phase = .selecting)
      (head : s.queue = (call, trigger) :: queue)
      (h : Handled { s with queue := queue } io call trigger s') : Step s (.recv io) s'
  | sent {s : Runtime} {idx : Nat} {trigger : PodTrigger} {next : ServerlessPhase} {pod : PodTask}
      (sends : s.phase.sends = some (idx, trigger, next)) (get : s.pods[idx]? = some pod)
      (rx : pod.rxOpen = true) (room : pod.queue.length < podCapacity) :
      Step s .send
        ({ s with phase := next }.setPod idx { pod with queue := pod.queue ++ [trigger] })
  | failed {s : Runtime} {idx : Nat} {pod : PodTask}
      (needs : s.phase.sends.map Prod.fst = some idx ∨ s.phase.awaits = some idx)
      (get : s.pods[idx]? = some pod) (rx : pod.rxOpen = false) : Step s .send s.failed
  | noVacancy {s : Runtime} {task : WorkerTask} {idx : Nat} (phase : s.phase = .finding task idx)
      (last : s.pods.length ≤ idx) :
      Step s .send ({ s with phase := .selecting }.answer task.call (.created none))
  | allHalted {s : Runtime} {idx : Nat} (phase : s.phase = .halting idx)
      (last : s.pods.length ≤ idx) : Step s .send { s with phase := .joining }
  | joined {s : Runtime} (phase : s.phase = .joining) (ended : ∀ pod ∈ s.pods, pod.rxOpen = false) :
      Step s .send s.close
  | shutdown {s : Runtime} (phase : s.phase = .selecting) :
      Step s .shutdown { s with phase := .halting 0 }
  | serverExit {s : Runtime} (phase : s.phase = .selecting) : Step s .serverExit s.close
  | pod {s : Runtime} {idx : Nat} {a : PodAct} {p p' : PodTask} {o : PodOut}
      (get : s.pods[idx]? = some p) (closed : a = .hangup → s.phase = .closed)
      (h : PodTask.Step p a p' o) : Step s (.pod idx a) ((s.setPod idx p').emit idx o)

section Frames

variable {s : Runtime} {call : Nat} {a : Answer} {event : Fifo.Event Answer} {entry : Processed}
variable {status : Fifo.Status} {replies : List Nat} {idx : Nat} {p : PodTask} {o : PodOut}
variable {reply : Option PodReply}

@[simp] theorem record_fs : (s.record event).fs = s.fs := rfl
@[simp] theorem record_pods : (s.record event).pods = s.pods := rfl
@[simp] theorem record_queue : (s.record event).queue = s.queue := rfl
@[simp] theorem record_phase : (s.record event).phase = s.phase := rfl
@[simp] theorem record_calls : (s.record event).calls = s.calls := rfl
@[simp] theorem record_replies : (s.record event).replies = s.replies := rfl
@[simp] theorem record_log : (s.record event).log = s.log := rfl
@[simp] theorem record_history : (s.record event).history = s.history ++ [event] := rfl
@[simp] theorem record_delivered : (s.record event).delivered = s.delivered := rfl

@[simp] theorem answer_fs : (s.answer call a).fs = s.fs := rfl
@[simp] theorem answer_pods : (s.answer call a).pods = s.pods := rfl
@[simp] theorem answer_queue : (s.answer call a).queue = s.queue := rfl
@[simp] theorem answer_phase : (s.answer call a).phase = s.phase := rfl
@[simp] theorem answer_calls : (s.answer call a).calls = s.calls := rfl
@[simp] theorem answer_replies : (s.answer call a).replies = s.replies ++ [(call, a)] := rfl
@[simp] theorem answer_log : (s.answer call a).log = s.log := rfl
@[simp] theorem answer_history : (s.answer call a).history = s.history := rfl
@[simp] theorem answer_delivered : (s.answer call a).delivered = s.delivered := rfl

@[simp] theorem drop_fs : (s.drop replies).fs = s.fs := rfl
@[simp] theorem drop_pods : (s.drop replies).pods = s.pods := rfl
@[simp] theorem drop_queue : (s.drop replies).queue = s.queue := rfl
@[simp] theorem drop_phase : (s.drop replies).phase = s.phase := rfl
@[simp] theorem drop_calls : (s.drop replies).calls = s.calls := rfl
@[simp] theorem drop_replies :
    (s.drop replies).replies = s.replies ++ replies.map fun r => (r, .dropped) := rfl
@[simp] theorem drop_log : (s.drop replies).log = s.log := rfl
@[simp] theorem drop_history : (s.drop replies).history = s.history := rfl
@[simp] theorem drop_delivered : (s.drop replies).delivered = s.delivered := rfl

@[simp] theorem setStatus_fs : (s.setStatus call status).fs = s.fs := rfl
@[simp] theorem setStatus_pods : (s.setStatus call status).pods = s.pods := rfl
@[simp] theorem setStatus_queue : (s.setStatus call status).queue = s.queue := rfl
@[simp] theorem setStatus_phase : (s.setStatus call status).phase = s.phase := rfl
@[simp] theorem setStatus_replies : (s.setStatus call status).replies = s.replies := rfl
@[simp] theorem setStatus_log : (s.setStatus call status).log = s.log := rfl
@[simp] theorem setStatus_history : (s.setStatus call status).history = s.history := rfl
@[simp] theorem setStatus_delivered : (s.setStatus call status).delivered = s.delivered := rfl

@[simp] theorem processed_fs : (s.processed entry).fs = entry.fs := rfl
@[simp] theorem processed_pods : (s.processed entry).pods = s.pods := rfl
@[simp] theorem processed_queue : (s.processed entry).queue = s.queue := rfl
@[simp] theorem processed_phase : (s.processed entry).phase = s.phase := rfl
@[simp] theorem processed_calls : (s.processed entry).calls = s.calls := rfl
@[simp] theorem processed_replies : (s.processed entry).replies = s.replies := rfl
@[simp] theorem processed_log : (s.processed entry).log = s.log ++ [entry] := rfl
@[simp] theorem processed_history : (s.processed entry).history = s.history := rfl
@[simp] theorem processed_delivered : (s.processed entry).delivered = s.delivered := rfl

@[simp] theorem setPod_pods : (s.setPod idx p).pods = s.pods.set idx p := rfl
@[simp] theorem setPod_phase : (s.setPod idx p).phase = s.phase := rfl

theorem failed_eq (s : Runtime) : ∃ phase replies, s.failed = { s with phase, replies } := by
  unfold failed
  split <;> exact ⟨_, _, rfl⟩

@[simp] theorem failed_fs : s.failed.fs = s.fs := by obtain ⟨_, _, h⟩ := failed_eq s; rw [h]
@[simp] theorem failed_pods : s.failed.pods = s.pods := by obtain ⟨_, _, h⟩ := failed_eq s; rw [h]
@[simp] theorem failed_queue : s.failed.queue = s.queue := by
  obtain ⟨_, _, h⟩ := failed_eq s; rw [h]
@[simp] theorem failed_calls : s.failed.calls = s.calls := by
  obtain ⟨_, _, h⟩ := failed_eq s; rw [h]
@[simp] theorem failed_log : s.failed.log = s.log := by obtain ⟨_, _, h⟩ := failed_eq s; rw [h]
@[simp] theorem failed_history : s.failed.history = s.history := by
  obtain ⟨_, _, h⟩ := failed_eq s; rw [h]
@[simp] theorem failed_delivered : s.failed.delivered = s.delivered := by
  obtain ⟨_, _, h⟩ := failed_eq s; rw [h]

theorem deliver_eq (s : Runtime) (reply : Option PodReply) :
    ∃ phase replies, s.deliver reply = { s with phase, replies } := by
  unfold deliver
  split <;> exact ⟨_, _, rfl⟩

@[simp] theorem deliver_fs : (s.deliver reply).fs = s.fs := by
  obtain ⟨_, _, h⟩ := deliver_eq s reply; rw [h]
@[simp] theorem deliver_pods : (s.deliver reply).pods = s.pods := by
  obtain ⟨_, _, h⟩ := deliver_eq s reply; rw [h]
@[simp] theorem deliver_queue : (s.deliver reply).queue = s.queue := by
  obtain ⟨_, _, h⟩ := deliver_eq s reply; rw [h]
@[simp] theorem deliver_calls : (s.deliver reply).calls = s.calls := by
  obtain ⟨_, _, h⟩ := deliver_eq s reply; rw [h]
@[simp] theorem deliver_log : (s.deliver reply).log = s.log := by
  obtain ⟨_, _, h⟩ := deliver_eq s reply; rw [h]
@[simp] theorem deliver_history : (s.deliver reply).history = s.history := by
  obtain ⟨_, _, h⟩ := deliver_eq s reply; rw [h]
@[simp] theorem deliver_delivered : (s.deliver reply).delivered = s.delivered := by
  obtain ⟨_, _, h⟩ := deliver_eq s reply; rw [h]

@[simp] theorem emit_fs : (s.emit idx o).fs = s.fs := deliver_fs
@[simp] theorem emit_pods : (s.emit idx o).pods = s.pods := deliver_pods
@[simp] theorem emit_queue : (s.emit idx o).queue = s.queue := deliver_queue
@[simp] theorem emit_calls : (s.emit idx o).calls = s.calls := deliver_calls
@[simp] theorem emit_log : (s.emit idx o).log = s.log := deliver_log
@[simp] theorem emit_history : (s.emit idx o).history = s.history := deliver_history
@[simp] theorem emit_delivered :
    (s.emit idx o).delivered = s.delivered ++ o.delivered.map fun d => (d.1, idx, d.2) :=
  deliver_delivered

end Frames

variable {s s' : Runtime} {a : RuntimeAct}

theorem process_sound (s : Runtime) (io : Io) (call : Nat) (trigger : ServerlessTrigger) :
    Handled s io call trigger (s.process io call trigger) := by
  cases trigger with
  | createWorker name reply =>
    simp only [process]
    split
    · rename_i source hs
      rw [hs]
      exact .readable hs
    · rename_i hs
      rw [hs]
      exact .unreadable hs
  | toPod id trigger =>
    simp only [process]
    split
    · exact .forward ‹_›
    · exact .unknown ‹_›
  | uploadWorkerCode name code reply => exact .upload
  | removeWorkerCode name => exact .remove

theorem stepSend_sound (h : s.stepSend = some s') : Step s .send s' := by
  unfold stepSend at h
  split at h
  · rename_i idx trigger next hsends
    split at h
    · rename_i hpod
      have hlen := List.getElem?_eq_none_iff.mp hpod
      unfold exhausted at h
      split at h
      · rename_i task i hp
        cases h
        obtain rfl : i = idx := by
          simpa [ServerlessPhase.sends, hp] using congrArg (Option.map Prod.fst) hsends
        exact .noVacancy hp hlen
      · rename_i i hp
        cases h
        obtain rfl : i = idx := by
          simpa [ServerlessPhase.sends, hp] using congrArg (Option.map Prod.fst) hsends
        exact .allHalted hp hlen
      · cases h
    · rename_i pod hpod
      split at h
      · obtain ⟨hroom, h⟩ := Option.ite_none_right_eq_some.mp h
        cases h
        exact .sent hsends hpod ‹_› hroom
      · cases h
        exact .failed (.inl (by rw [hsends]; rfl)) hpod (Bool.not_eq_true _ ▸ ‹_›)
  · rename_i idx hsends hawaits
    split at h
    · cases h
    · rename_i pod hpod
      obtain ⟨hrx, h⟩ := Option.ite_none_left_eq_some.mp h
      cases h
      exact .failed (.inr hawaits) hpod (Bool.not_eq_true _ ▸ hrx)
  · obtain ⟨⟨hp, hended⟩, h⟩ := Option.ite_none_right_eq_some.mp h
    cases h
    exact .joined hp hended

theorem step_sound (h : s.step a = some s') : Step s a s' := by
  cases a with
  | issue client op =>
    obtain ⟨hidle, h⟩ := Option.ite_none_right_eq_some.mp h
    cases h
    exact .issue hidle
  | enqueue call =>
    simp only [step] at h
    split at h
    · obtain ⟨⟨hrx, hroom⟩, h⟩ := Option.ite_none_right_eq_some.mp h
      cases h
      exact .enqueue ‹_› hrx hroom
    · cases h
  | refuse call =>
    simp only [step] at h
    split at h
    · obtain ⟨hrx, h⟩ := Option.ite_none_left_eq_some.mp h
      cases h
      exact .refuse ‹_› (Bool.not_eq_true _ ▸ hrx)
    · cases h
  | abandon call =>
    simp only [step] at h
    split at h
    · cases h
      exact .abandonSending ‹_›
    · cases h
      exact .abandonWaiting ‹_›
    · cases h
  | ret call =>
    simp only [step] at h
    split at h
    · obtain ⟨a, ha, heq⟩ := Option.map_eq_some_iff.mp h
      cases heq
      exact .ret ‹_› ha
    · cases h
  | recv io =>
    simp only [step] at h
    split at h
    · cases h
      exact .recv ‹_› ‹_› (process_sound _ _ _ _)
    · cases h
  | send => exact stepSend_sound h
  | shutdown =>
    obtain ⟨hp, h⟩ := Option.ite_none_right_eq_some.mp h
    cases h
    exact .shutdown hp
  | serverExit =>
    obtain ⟨hp, h⟩ := Option.ite_none_right_eq_some.mp h
    cases h
    exact .serverExit hp
  | pod idx b =>
    simp only [step] at h
    split at h
    · obtain ⟨hp, h⟩ := Option.ite_none_right_eq_some.mp h
      obtain ⟨⟨p', o⟩, hs, heq⟩ := Option.map_eq_some_iff.mp h
      cases heq
      exact .pod ‹_› (fun _ => hp) (PodTask.step_sound hs)
    · rename_i p b' hget hnot
      obtain ⟨⟨p', o⟩, hs, heq⟩ := Option.map_eq_some_iff.mp h
      cases heq
      exact .pod hget (fun hb => absurd hb hnot) (PodTask.step_sound hs)
    · cases h

theorem serving_deliver {reply : Option PodReply} :
    (s.deliver reply).phase.serving = s.phase.serving := by
  unfold deliver
  split <;> simp_all [ServerlessPhase.serving]

theorem serving_of_step (hs : Step s a s') (h : s.phase.serving = true)
    (ha : a ≠ .shutdown ∧ a ≠ .serverExit) : s'.phase.serving = true := by
  cases hs with
  | issue | enqueue | refuse | abandonSending | abandonWaiting | ret => exact h
  | recv phase head hh =>
    cases hh <;> first | rfl | simpa [ServerlessPhase.serving] using h
  | sent sends => exact (ServerlessPhase.serving_of_sends sends).trans h
  | failed =>
    unfold failed
    split <;> simp_all [ServerlessPhase.serving]
  | noVacancy => rfl
  | allHalted phase | joined phase => simp [phase, ServerlessPhase.serving] at h
  | shutdown => exact absurd rfl ha.1
  | serverExit => exact absurd rfl ha.2
  | pod => exact serving_deliver.trans h

theorem machine_sound {c : Config} (h : (machine c).step s a = some s') : Step s a s' :=
  step_sound h

theorem run_invariant {c : Config} {P : Runtime → Prop} (init : P (start c))
    (step : ∀ {s a s'}, P s → Step s a s' → P s') {as : List RuntimeAct}
    (h : (machine c).Run as s) : P s :=
  h.invariant init fun hi hs => step hi (machine_sound hs)

end Runtime

end Serverlessd
