import Serverlessd.Runtime.Worker.Task

namespace Serverlessd

namespace Worker

def swept (w : Worker) : Worker := { w with repliers := w.repliers.cleanupDeadRepliers }

def gone (w : Worker) (result : Option WorkerError) : Worker :=
  { w with phase := .closing, queue := [], result := result }

def queueReplies (w : Worker) : List (Nat × Option String) :=
  dropped (w.queue.flatMap WorkerTrigger.replies)

def registered (w : Worker) (reply promise : Nat) (linked : Bool) : Worker :=
  { w with
    repliers := (w.repliers.register reply).1
    links := w.links ++ [⟨reply, promise, linked⟩]
    phase := .draining }

@[simp] theorem gone_phase {w : Worker} {result : Option WorkerError} :
    (w.gone result).phase = .closing := rfl

@[simp] theorem registered_phase {w : Worker} {reply promise : Nat} {linked : Bool} :
    (w.registered reply promise linked).phase = .draining := rfl

inductive Resumed : Worker → Worker → WorkerOut → Prop
  | halt {w : Worker} {token : Halter} (phase : w.phase = .checkpoint (.halt token)) :
      Resumed w (w.swept.gone none) { replies := w.queueReplies }
  | call {w : Worker} {reply : Nat} (phase : w.phase = .checkpoint (.http reply))
      (fetch : w.fetch = true) :
      Resumed w { w.swept with phase := .calling reply } { ticks := 1 }
  | skip {w : Worker} {reply : Nat} (phase : w.phase = .checkpoint (.http reply))
      (fetch : w.fetch = false) :
      Resumed w { w.swept with phase := .parked } { replies := dropped [reply] }
  | drained {w : Worker} (phase : w.phase = .draining) :
      Resumed w { w with phase := .parked } {}
  | polled {w : Worker} {future : Nat} {closing : Bool} (phase : w.phase = .polling future closing) :
      Resumed w { w with
        phase := if closing then .closing else .parked
        futures := w.futures.eraseIdx future } { ticks := 1 }

inductive Returned : Worker → Nat → CallResult → Worker → WorkerOut → Prop
  | value {w : Worker} {reply : Nat} :
      Returned w reply .value { w with phase := .parked } { ticks := 1, replies := dropped [reply] }
  | chained {w : Worker} {reply promise : Nat} (valid : promise < w.isolate.promises.length) :
      Returned w reply (.promise promise .ok)
        { w.registered reply promise true with
          isolate := w.isolate.chain promise w.repliers.boxes.length }
        { ticks := 1 }
  | notRegistered {w : Worker} {reply promise : Nat} (valid : promise < w.isolate.promises.length) :
      Returned w reply (.promise promise .notRegistered) (w.registered reply promise false)
        { ticks := 1 }
  | noFunction {w : Worker} {reply promise : Nat} (valid : promise < w.isolate.promises.length) :
      Returned w reply (.promise promise .noFunction)
        ((w.registered reply promise false).gone (some .runtimeError))
        { ticks := 1, replies := w.queueReplies }

inductive Step : Worker → WorkerAct → Worker → WorkerOut → Prop
  | push {w : Worker} {trigger : WorkerTrigger} (rx : w.rxOpen = true)
      (room : w.queue.length < workerCapacity) :
      Step w (.push trigger) { w with queue := w.queue ++ [trigger] } {}
  | unmonitored {w : Worker} (phase : w.phase = .starting) :
      Step w .unmonitored { w with phase := .closed, queue := [] } { replies := w.queueReplies }
  | initLoop {w : Worker} {answers : InitAnswers} {fetch : Bool} (phase : w.phase = .starting)
      (terminates : answers.terminates w.terminating = true)
      (outcome : (createTaskInit answers).1 = .loop fetch) :
      Step w (.init answers) { w with
        futures := List.replicate answers.fetches false
        terminating := w.terminating && answers.terminated.isNone
        phase := .parked
        fetch := fetch }
        { ticks := 2 }
  | initError {w : Worker} {answers : InitAnswers} {err : WorkerError} (phase : w.phase = .starting)
      (terminates : answers.terminates w.terminating = true)
      (outcome : (createTaskInit answers).1 = .error err) :
      Step w (.init answers)
        ({ w with
          futures := List.replicate answers.fetches false
          terminating := w.terminating && answers.terminated.isNone }.gone (some err))
        { ticks := (createTaskInit answers).2, replies := w.queueReplies }
  | recv {w : Worker} {event : WorkerTrigger} {queue : List WorkerTrigger}
      (phase : w.phase = .parked) (head : w.queue = event :: queue) :
      Step w .recv { w with phase := .checkpoint event, queue := queue } {}
  | newPromise {w : Worker} (js : w.inJs = true) :
      Step w .newPromise { w with isolate := w.isolate.newPromise } {}
  | fulfil {w : Worker} {promise : Nat} {value : Value} (js : w.inJs = true)
      (pending : w.isolate.promises[promise]? = some .pending) :
      Step w (.fulfil promise value) { w with isolate := w.isolate.fulfil promise value } {}
  | reject {w : Worker} {promise : Nat} (js : w.inJs = true)
      (pending : w.isolate.promises[promise]? = some .pending) :
      Step w (.reject promise) { w with isolate := w.isolate.reject promise } {}
  | callFetch {w : Worker} (js : w.inJs = true) :
      Step w .callFetch { w with futures := w.futures ++ [false] } {}
  | job {w : Worker} {ptr : Nat} {value : Value} {jobs : List (Nat × Value)} (js : w.inJs = true)
      (head : w.isolate.jobs = (ptr, value) :: jobs) :
      Step w .job
        { w with repliers := (w.repliers.take ptr).1, isolate := { w.isolate with jobs := jobs } }
        { ticks := 1
          replies := (w.repliers.read ptr).toList.map fun r => (r, some value.rustStringLossy) }
  | resume {w w' : Worker} {o : WorkerOut} (drained : w.isolate.jobs = []) (h : Resumed w w' o) :
      Step w .resume w' o
  | retThrew {w : Worker} {reply : Nat} (phase : w.phase = .calling reply) :
      Step w (.ret .threw) (w.gone (some .timeout)) { replies := dropped [reply] ++ w.queueReplies }
  | ret {w w' : Worker} {o : WorkerOut} {reply : Nat} {result : CallResult}
      (phase : w.phase = .calling reply) (drained : w.isolate.jobs = [])
      (h : Returned w reply result w' o) : Step w (.ret result) w' o
  | retTerminated {w w' : Worker} {o : WorkerOut} {reply : Nat} {result : CallResult}
      (phase : w.phase = .calling reply) (flag : w.terminating = true)
      (h : Returned { w with terminating := false }.discardJobs reply result w' o) :
      Step w (.retTerminated result) w' o
  | terminateCall {w : Worker} {reply : Nat} (flag : w.terminating = true)
      (phase : w.phase = .calling reply) :
      Step w .terminate ({ w with terminating := false }.gone (some .timeout))
        { replies := dropped [reply] ++ w.queueReplies }
  | terminate {w w' : Worker} {o : WorkerOut} (flag : w.terminating = true)
      (h : Resumed { w with terminating := false }.discardJobs w' o) :
      Step w .terminate w' o
  | pollPending {w : Worker} {future : Nat} {polled : Bool}
      (phase : w.phase = .parked ∨ w.phase = .closing) (live : w.futures[future]? = some polled) :
      Step w (.poll future false) { w with futures := w.futures.set future true }
        { ticks := if polled then 2 else 3 }
  | pollReady {w : Worker} {future : Nat} {polled closing : Bool}
      (phase : w.phase = if closing then .closing else .parked)
      (live : w.futures[future]? = some polled) :
      Step w (.poll future true) { w with phase := .polling future closing }
        { ticks := if polled then 2 else 3 }
  | close {w : Worker} (phase : w.phase = .closing) (futures : w.futures = []) :
      Step w .close { w with phase := .closed, repliers := w.repliers.drop.1 }
        { replies := w.repliers.drop.2.map fun r => (r, some "") }
  | cancel {w : Worker} (phase : w.phase = .starting ∨ w.phase = .parked) :
      Step w .cancel { w with phase := .closed, queue := [], futures := [] }
        { replies := w.queueReplies }
  | cancelClosing {w : Worker} (phase : w.phase = .closing) :
      Step w .cancel
        { w with phase := .closed, queue := [], futures := [], repliers := w.repliers.drop.1 }
        { replies := w.queueReplies ++ w.repliers.drop.2.map fun r => (r, some "") }
  | monitorLeave {w : Worker} (watching : w.monitor = .watching) :
      Step w .monitorLeave { w with monitor := .halting, terminating := true } {}
  | monitorSend {w : Worker} (halting : w.monitor = .halting) (rx : w.rxOpen = true)
      (room : w.queue.length < workerCapacity) :
      Step w .monitorSend { w with monitor := .waiting, queue := w.queue ++ [.halt .monitor] } {}
  | monitorSendFailed {w : Worker} (halting : w.monitor = .halting) (rx : w.rxOpen = false) :
      Step w .monitorSend { w with monitor := .waiting } {}
  | monitorDone {w : Worker} (waiting : w.monitor = .waiting)
      (resolved : w.holdsToken .monitor = false) :
      Step w .monitorDone { w with monitor := .finished } {}

theorem resumed_sound {w w' : Worker} {o : WorkerOut} (h : w.resumed = some (w', o)) :
    Resumed w w' o := by
  unfold resumed at h
  split at h
  · rename_i event hp
    obtain ⟨rfl, rfl⟩ := Prod.mk.inj (Option.some.inj h)
    cases event with
    | halt token => exact .halt hp
    | http reply =>
      by_cases hf : w.fetch = true
      · simp only [if_pos hf]
        exact .call hp hf
      · simp only [if_neg hf]
        exact .skip hp (Bool.not_eq_true _ ▸ hf)
  · rename_i hp
    obtain ⟨rfl, rfl⟩ := Prod.mk.inj (Option.some.inj h)
    exact .drained hp
  · rename_i hp
    obtain ⟨rfl, rfl⟩ := Prod.mk.inj (Option.some.inj h)
    exact .polled hp
  · cases h

theorem poll_sound {w w' : Worker} {o : WorkerOut} {future : Nat} {ready : Bool} (closing : Bool)
    (phase : w.phase = if closing then .closing else .parked)
    (h : w.poll future ready closing = some (w', o)) : Step w (.poll future ready) w' o := by
  unfold poll at h
  split at h
  · cases h
  · rename_i polled hlive
    obtain ⟨rfl, rfl⟩ := Prod.mk.inj (Option.some.inj h)
    exact .pollPending (by cases closing <;> simp [phase]) hlive
  · rename_i polled hlive
    obtain ⟨rfl, rfl⟩ := Prod.mk.inj (Option.some.inj h)
    exact .pollReady phase hlive

theorem returned_sound {w w' : Worker} {o : WorkerOut} {reply : Nat} {result : CallResult}
    (h : w.returned reply result = some (w', o)) : Returned w reply result w' o := by
  unfold returned at h
  split at h
  · cases h
  · obtain ⟨rfl, rfl⟩ := Prod.mk.inj (Option.some.inj h)
    exact .value
  · split at h
    · rename_i promise chained hvalid
      cases chained <;>
        (obtain ⟨rfl, rfl⟩ := Prod.mk.inj (Option.some.inj h))
      · exact .chained hvalid
      · exact .noFunction hvalid
      · exact .notRegistered hvalid
    · cases h

theorem cancelled_sound {w : Worker} (h : w.awaiting = true) :
    Step w .cancel w.cancelled.1 w.cancelled.2 := by
  unfold cancelled
  cases hp : w.phase with
  | closing => exact .cancelClosing hp
  | starting => exact .cancel (.inl hp)
  | parked => exact .cancel (.inr hp)
  | _ => simp [awaiting, hp] at h

theorem step_sound {w w' : Worker} {a : WorkerAct} {o : WorkerOut}
    (h : w.step a = some (w', o)) : Step w a w' o := by
  cases a with
  | push trigger =>
    obtain ⟨⟨hrx, hroom⟩, h⟩ := Option.ite_none_right_eq_some.mp h
    cases h
    exact .push hrx hroom
  | unmonitored =>
    obtain ⟨hp, h⟩ := Option.ite_none_right_eq_some.mp h
    cases h
    exact .unmonitored hp
  | init answers =>
    obtain ⟨⟨hp, ht⟩, h⟩ := Option.ite_none_right_eq_some.mp h
    split at h
    · rename_i fetch ticks hinit
      cases h
      have hloop : (createTaskInit answers).1 = .loop fetch := by rw [hinit]
      obtain rfl : ticks = 2 := by simpa [hinit] using createTaskInit_loop hloop
      exact .initLoop hp ht hloop
    · rename_i err ticks hinit
      cases h
      obtain rfl : (createTaskInit answers).2 = ticks := by rw [hinit]
      exact .initError hp ht (by rw [hinit])
    · cases h
    · cases h
  | recv =>
    simp only [step] at h
    split at h
    · cases h
      exact .recv ‹_› ‹_›
    · cases h
  | newPromise =>
    obtain ⟨hjs, h⟩ := Option.ite_none_right_eq_some.mp h
    cases h
    exact .newPromise hjs
  | fulfil promise value =>
    obtain ⟨⟨hjs, hp⟩, h⟩ := Option.ite_none_right_eq_some.mp h
    cases h
    exact .fulfil hjs (of_decide_eq_true hp)
  | reject promise =>
    obtain ⟨⟨hjs, hp⟩, h⟩ := Option.ite_none_right_eq_some.mp h
    cases h
    exact .reject hjs (of_decide_eq_true hp)
  | callFetch =>
    obtain ⟨hjs, h⟩ := Option.ite_none_right_eq_some.mp h
    cases h
    exact .callFetch hjs
  | job =>
    simp only [step] at h
    split at h
    · cases h
      exact .job ‹_› ‹_›
    · cases h
  | resume =>
    obtain ⟨hd, h⟩ := Option.ite_none_right_eq_some.mp h
    exact .resume hd (resumed_sound h)
  | ret result =>
    simp only [step] at h
    split at h
    · cases h
      exact .retThrew ‹_›
    · obtain ⟨hd, h⟩ := Option.ite_none_right_eq_some.mp h
      exact .ret ‹_› hd (returned_sound h)
    · cases h
  | retTerminated result =>
    simp only [step] at h
    split at h
    · exact .retTerminated ‹_› ‹_› (returned_sound h)
    · cases h
  | terminate =>
    obtain ⟨hflag, h⟩ := Option.ite_none_right_eq_some.mp h
    simp only at h
    split at h
    · cases h
      exact .terminateCall hflag ‹_›
    · exact .terminate hflag (resumed_sound h)
  | poll future ready =>
    simp only [step] at h
    split at h
    · exact poll_sound false ‹_› h
    · exact poll_sound true ‹_› h
    · cases h
  | close =>
    obtain ⟨⟨hp, hf⟩, h⟩ := Option.ite_none_right_eq_some.mp h
    cases h
    exact .close hp hf
  | cancel =>
    obtain ⟨hw, h⟩ := Option.ite_none_right_eq_some.mp h
    have hc := cancelled_sound hw
    rwa [Option.some.inj h] at hc
  | monitorLeave =>
    obtain ⟨hm, h⟩ := Option.ite_none_right_eq_some.mp h
    cases h
    exact .monitorLeave hm
  | monitorSend =>
    obtain ⟨hm, h⟩ := Option.ite_none_right_eq_some.mp h
    split at h
    · obtain ⟨hroom, h⟩ := Option.ite_none_right_eq_some.mp h
      cases h
      exact .monitorSend hm ‹_› hroom
    · cases h
      exact .monitorSendFailed hm (Bool.not_eq_true _ ▸ ‹_›)
  | monitorDone =>
    obtain ⟨⟨hm, ht⟩, h⟩ := Option.ite_none_right_eq_some.mp h
    cases h
    exact .monitorDone hm (Bool.not_eq_true _ ▸ ht)

theorem task_of_resumed {w w' : Worker} {o : WorkerOut} (h : Resumed w w' o) :
    w'.task = w.task := by
  cases h <;> rfl

theorem task_of_returned {w w' : Worker} {o : WorkerOut} {reply : Nat} {result : CallResult}
    (h : Returned w reply result w' o) : w'.task = w.task := by
  cases h <;> rfl

theorem task_of_step {w w' : Worker} {a : WorkerAct} {o : WorkerOut} (h : Step w a w' o) :
    w'.task = w.task := by
  cases h with
  | resume drained h => exact task_of_resumed h
  | terminate flag h => exact (task_of_resumed h).trans rfl
  | ret phase drained h => exact task_of_returned h
  | retTerminated phase flag h => exact (task_of_returned h).trans rfl
  | _ => rfl

theorem rxOpen_of_resumed {w w' : Worker} {o : WorkerOut} (h : Resumed w w' o)
    (hr : w'.rxOpen = true) : w.rxOpen = true := by
  cases h with
  | halt => cases hr
  | call phase | skip phase | drained phase => simp [rxOpen, phase]
  | @polled future closing phase =>
    cases closing with
    | true => cases hr
    | false => simp [rxOpen, phase]

theorem rxOpen_of_step {w w' : Worker} {a : WorkerAct} {o : WorkerOut} (h : Step w a w' o)
    (hr : w'.rxOpen = true) : w.rxOpen = true := by
  cases h with
  | initLoop phase | recv phase | ret phase | retTerminated phase => simp [rxOpen, phase]
  | unmonitored | initError | retThrew | terminateCall | close | cancel | cancelClosing => cases hr
  | resume drained h => exact rxOpen_of_resumed h hr
  | terminate flag h =>
    have hw := rxOpen_of_resumed h hr
    exact hw
  | @pollReady future polled closing phase =>
    cases closing with
    | true => cases hr
    | false => simp [rxOpen, phase]
  | _ => exact hr

theorem holdsToken_iff {w : Worker} {token : Halter} : w.holdsToken token = true ↔
    .halt token ∈ w.queue ∨ w.phase = .checkpoint (.halt token) := by
  simp [holdsToken]

theorem holdsToken_of_resumed {w w' : Worker} {o : WorkerOut} (h : Resumed w w' o)
    {token : Halter} (ht : w.holdsToken token = true) (hr : w'.rxOpen = true) :
    w'.holdsToken token = true := by
  rw [holdsToken_iff] at ht ⊢
  cases h with
  | halt => cases hr
  | call phase | skip phase | drained phase | polled phase =>
    exact .inl (ht.resolve_right (by simp [phase]))

theorem holdsToken_of_returned {w w' : Worker} {o : WorkerOut} {reply : Nat} {result : CallResult}
    (h : Returned w reply result w' o) (hp : w.phase = .calling reply) {token : Halter}
    (ht : w.holdsToken token = true) (hr : w'.rxOpen = true) : w'.holdsToken token = true := by
  rw [holdsToken_iff] at ht ⊢
  cases h with
  | value | chained | notRegistered => exact .inl (ht.resolve_right (by simp [hp]))
  | noFunction => cases hr

theorem holdsToken_of_step {w w' : Worker} {a : WorkerAct} {o : WorkerOut} (h : Step w a w' o)
    {token : Halter} (ht : w.holdsToken token = true) (hr : w'.rxOpen = true) :
    w'.holdsToken token = true := by
  have hw := holdsToken_iff.mp ht
  cases h with
  | push | monitorSend => exact holdsToken_iff.mpr (hw.imp_left (List.mem_append_left _))
  | unmonitored | initError | retThrew | terminateCall | close | cancel | cancelClosing => cases hr
  | ret phase drained h => exact holdsToken_of_returned h phase ht hr
  | retTerminated phase flag h => exact holdsToken_of_returned h phase (holdsToken_iff.mpr hw) hr
  | initLoop phase =>
    exact holdsToken_iff.mpr (.inl (hw.resolve_right (by simp [phase])))
  | @pollReady future polled closing phase =>
    refine holdsToken_iff.mpr (.inl (hw.resolve_right ?_))
    cases closing <;> simp [phase]
  | @recv event queue phase head =>
    obtain he | hm := List.mem_cons.mp (head ▸ hw.resolve_right (by simp [phase]))
    · exact holdsToken_iff.mpr (.inr (he ▸ rfl))
    · exact holdsToken_iff.mpr (.inl hm)
  | resume drained h => exact holdsToken_of_resumed h ht hr
  | terminate flag h => exact holdsToken_of_resumed h (holdsToken_iff.mpr hw) hr
  | _ => exact ht

theorem holdsToken_before_resumed {w w' : Worker} {o : WorkerOut} (h : Resumed w w' o)
    {token : Halter} (ht : w'.holdsToken token = true) : w.holdsToken token = true := by
  rw [holdsToken_iff] at ht ⊢
  cases h with
  | halt => simp [gone] at ht
  | call | skip | drained => exact ht.imp_right (by nofun)
  | @polled future closing => exact ht.imp_right (by cases closing <;> nofun)

theorem holdsToken_before_returned {w w' : Worker} {o : WorkerOut} {reply : Nat}
    {result : CallResult} (h : Returned w reply result w' o) {token : Halter}
    (ht : w'.holdsToken token = true) : w.holdsToken token = true := by
  rw [holdsToken_iff] at ht ⊢
  cases h with
  | value | chained | notRegistered => exact .inl (ht.resolve_right (by nofun))
  | noFunction => simp [gone] at ht

theorem holdsToken_before {w w' : Worker} {a : WorkerAct} {o : WorkerOut} (h : Step w a w' o)
    {token : Halter} (ht : w'.holdsToken token = true) :
    w.holdsToken token = true ∨ a = .push (.halt token) ∨ a = .monitorSend ∧ token = .monitor := by
  have hw := holdsToken_iff.mp ht
  cases h with
  | @push trigger rx room =>
    obtain hw | hw := hw
    · obtain hw | hw := List.mem_append.mp hw
      · exact .inl (holdsToken_iff.mpr (.inl hw))
      · exact .inr (.inl (congrArg _ (List.mem_singleton.mp hw).symm))
    · exact .inl (holdsToken_iff.mpr (.inr hw))
  | monitorSend halting rx room =>
    obtain hw | hw := hw
    · obtain hw | hw := List.mem_append.mp hw
      · exact .inl (holdsToken_iff.mpr (.inl hw))
      · exact .inr (.inr ⟨rfl, WorkerTrigger.halt.inj (List.mem_singleton.mp hw)⟩)
    · exact .inl (holdsToken_iff.mpr (.inr hw))
  | @recv event queue phase head =>
    refine .inl (holdsToken_iff.mpr (.inl (head ▸ ?_)))
    obtain hw | hw := hw
    · exact List.mem_cons_of_mem _ hw
    · cases hw
      exact List.mem_cons_self
  | resume drained h => exact .inl (holdsToken_before_resumed h ht)
  | terminate flag h => exact .inl (holdsToken_before_resumed h ht)
  | ret phase drained h => exact .inl (holdsToken_before_returned h ht)
  | retTerminated phase flag h => exact .inl (holdsToken_before_returned h ht)
  | unmonitored | initError | retThrew | terminateCall | cancel | cancelClosing =>
    simp [gone] at hw
  | initLoop | pollReady | close =>
    exact .inl (holdsToken_iff.mpr (.inl (hw.resolve_right (by nofun))))
  | _ => exact .inl ht

theorem machine_sound {task : WorkerTask} {w w' : Worker} {a : WorkerAct}
    (h : (machine task).step w a = some w') : ∃ o, Step w a w' o := by
  obtain ⟨⟨t, o⟩, hs, rfl⟩ := Option.map_eq_some_iff.mp h
  exact ⟨o, step_sound hs⟩

theorem run_invariant {task : WorkerTask} {P : Worker → Prop} (init : P (machine task).init)
    (step : ∀ {w a w' o}, P w → Step w a w' o → P w') {as : List WorkerAct} {w : Worker}
    (h : (machine task).Run as w) : P w := by
  refine h.invariant init fun hi hs => ?_
  obtain ⟨o, hs⟩ := machine_sound hs
  exact step hi hs

end Worker

end Serverlessd
