import Serverlessd.Runtime.Worker.Continuations

namespace Serverlessd

def resolved (replies : List (Nat × Option String)) (r : Nat) : Nat :=
  (replies.map Prod.fst).count r

section Resolved

variable {replies rest : List (Nat × Option String)} {r : Nat}

@[simp] theorem resolved_nil : resolved [] r = 0 := rfl

@[simp] theorem resolved_append :
    resolved (replies ++ rest) r = resolved replies r + resolved rest r := by
  simp [resolved]

@[simp] theorem resolved_dropped (l : List Nat) : resolved (Worker.dropped l) r = l.count r := by
  simp [resolved, Worker.dropped, Function.comp_def]

theorem resolved_map (l : List Nat) (f : Nat → Option String) :
    resolved (l.map fun x => (x, f x)) r = l.count r := by
  simp [resolved, Function.comp_def]

end Resolved

namespace Worker

variable {w w' : Worker} {o : WorkerOut} {a : WorkerAct} {r : Nat}

def handling (w : Worker) : List Nat :=
  match w.phase with
  | .checkpoint event => event.replies
  | .calling reply => [reply]
  | _ => []

def queued (w : Worker) : List Nat := w.queue.flatMap WorkerTrigger.replies

def held (w : Worker) (r : Nat) : Nat :=
  w.queued.count r + w.handling.count r + w.repliers.held r

def pushed : WorkerAct → List Nat
  | .push trigger => trigger.replies
  | _ => []

theorem held_of_handling {l : List Nat} (h : w.handling = l) :
    w.held r = w.queued.count r + l.count r + w.repliers.held r := by
  rw [held, h]

@[simp] theorem resolved_queueReplies : resolved w.queueReplies r = w.queued.count r :=
  resolved_dropped _

theorem held_gone (result : Option WorkerError) :
    (w.gone result).held r + w.queued.count r = w.queued.count r + w.repliers.held r := by
  rw [held_of_handling (l := []) rfl]
  simp only [queued, gone, List.flatMap_nil, List.count_nil]
  omega

theorem held_registered {reply promise : Nat} {linked : Bool} :
    (w.registered reply promise linked).held r =
      w.queued.count r + [reply].count r + w.repliers.held r := by
  have hreg := Repliers.held_register (r := w.repliers) (x := r) reply
  rw [held_of_handling (l := []) rfl]
  simp only [queued, registered, hreg, List.count_nil, List.count_singleton, beq_iff_eq]
  omega

theorem held_resumed (hr : Resumed w w' o) : w'.held r + resolved o.replies r = w.held r := by
  cases hr with
  | halt phase =>
    have hgone : (w.swept.gone none).held r + w.queued.count r =
        w.queued.count r + w.repliers.held r := held_gone none
    rw [held_of_handling (w := w) (l := []) (by simp [handling, phase, WorkerTrigger.replies])]
    simpa using hgone
  | @call reply phase =>
    rw [held_of_handling (w := w) (l := [reply]) (by simp [handling, phase, WorkerTrigger.replies])]
    rfl
  | @skip reply phase =>
    rw [held_of_handling (w := w) (l := [reply]) (by simp [handling, phase, WorkerTrigger.replies]),
      held_of_handling (l := []) rfl, resolved_dropped]
    simp only [List.count_nil]
    exact Nat.add_right_comm _ _ _
  | drained phase =>
    rw [held_of_handling (w := w) (l := []) (by simp [handling, phase])]
    rfl
  | @polled future closing phase =>
    rw [held_of_handling (w := w) (l := []) (by simp [handling, phase]),
      held_of_handling (l := []) (by cases closing <;> rfl)]
    rfl

theorem held_returned {reply : Nat} {result : CallResult} (phase : w.phase = .calling reply)
    (hr : Returned w reply result w' o) : w'.held r + resolved o.replies r = w.held r := by
  rw [held_of_handling (w := w) (l := [reply]) (by simp [handling, phase])]
  cases hr with
  | value =>
    rw [held_of_handling (l := []) rfl]
    simp only [queued, resolved_dropped, List.count_nil]
    omega
  | @chained promise =>
    rw [← @held_registered w r reply promise true]
    rfl
  | notRegistered =>
    rw [← held_registered]
    rfl
  | @noFunction promise =>
    have hgone := held_gone (w := w.registered reply promise false) (r := r) (some .runtimeError)
    have hreg := @held_registered w r reply promise false
    rw [held_of_handling (l := []) rfl] at hreg
    simp only [resolved_queueReplies, List.count_nil, queued, registered] at *
    omega

theorem held_step (hs : Step w a w' o) :
    w'.held r + resolved o.replies r = w.held r + (pushed a).count r := by
  cases hs with
  | @push trigger rx room =>
    have hq : ({ w with queue := w.queue ++ [trigger] } : Worker).queued =
        w.queued ++ trigger.replies := by simp [queued]
    have hh : ({ w with queue := w.queue ++ [trigger] } : Worker).handling = w.handling := rfl
    simp only [held, hq, hh, List.count_append, pushed, resolved_nil]
    omega
  | @recv event queue phase head =>
    have hq : w.queued = event.replies ++ queue.flatMap WorkerTrigger.replies := by
      simp [queued, head]
    rw [held_of_handling (w := w) (l := []) (by simp [handling, phase]), hq,
      held_of_handling (l := event.replies) rfl, List.count_append]
    simp only [queued, pushed, resolved_nil, List.count_nil]
    omega
  | @job ptr value jobs js head =>
    have htake := Repliers.held_take (r := w.repliers) (x := r) ptr
    have hres : resolved ((w.repliers.read ptr).toList.map fun r => (r, some value.rustStringLossy))
        r = if w.repliers.read ptr = some r then 1 else 0 := by
      rw [resolved_map]
      cases w.repliers.read ptr <;> simp [List.count_singleton]
    have hheld : ({ w with
        repliers := (w.repliers.take ptr).1
        isolate := { w.isolate with jobs := jobs } } : Worker).held r =
          w.queued.count r + w.handling.count r + (w.repliers.take ptr).1.held r := rfl
    rw [hres, hheld, held]
    simp only [pushed, List.count_nil]
    omega
  | resume drained hr => simpa [pushed] using held_resumed hr
  | @retThrew reply phase =>
    have hgone := held_gone (w := w) (r := r) (some .timeout)
    rw [held_of_handling (w := w) (l := [reply]) (by simp [handling, phase])]
    simp only [resolved_append, resolved_dropped, resolved_queueReplies, pushed, List.count_nil]
    omega
  | @terminateCall reply flag phase =>
    have hgone := held_gone (w := { w with terminating := false }) (r := r) (some .timeout)
    simp only [queued] at hgone
    rw [held_of_handling (w := w) (l := [reply]) (by simp [handling, phase])]
    simp only [resolved_append, resolved_dropped, resolved_queueReplies, pushed, List.count_nil,
      queued]
    omega
  | ret phase drained hr => simpa [pushed] using held_returned phase hr
  | retTerminated phase flag hr =>
    have hres := held_returned (w := { w with terminating := false }.discardJobs) (r := r) phase hr
    exact hres
  | terminate flag hr =>
    have hres := held_resumed (r := r) hr
    exact hres
  | unmonitored phase =>
    rw [held_of_handling (w := w) (l := []) (by simp [handling, phase]),
      held_of_handling (l := []) rfl]
    simp [queued, pushed, Nat.add_comm]
  | cancel phase =>
    have hh : w.handling = [] := by obtain hp | hp := phase <;> simp [handling, hp]
    rw [held_of_handling hh, held_of_handling (l := []) rfl]
    simp [queued, pushed, Nat.add_comm]
  | @initError answers err phase =>
    have hgone := held_gone (r := r) (some err) (w := { w with
      futures := List.replicate answers.fetches false
      terminating := w.terminating && answers.terminated.isNone })
    simp only [queued] at hgone
    rw [held_of_handling (w := w) (l := []) (by simp [handling, phase])]
    simp only [resolved_queueReplies, pushed, List.count_nil, queued]
    omega
  | initLoop phase =>
    rw [held_of_handling (w := w) (l := []) (by simp [handling, phase])]
    rfl
  | @pollReady future polled closing phase =>
    rw [held_of_handling (w := w) (l := []) (by cases closing <;> simp [handling, phase])]
    rfl
  | close phase =>
    have hdrop := Repliers.held_drop (r := w.repliers) (x := r)
    rw [held_of_handling (w := w) (l := []) (by simp [handling, phase]),
      held_of_handling (l := []) rfl, resolved_map]
    simp only [queued, pushed, List.count_nil]
    omega
  | cancelClosing phase =>
    have hdrop := Repliers.held_drop (r := w.repliers) (x := r)
    rw [held_of_handling (w := w) (l := []) (by simp [handling, phase]),
      held_of_handling (l := []) rfl, resolved_append, resolved_queueReplies, resolved_map]
    simp only [queued, pushed, List.count_nil, List.flatMap_nil]
    omega
  | monitorSend =>
    have hq : ({ w with queue := w.queue ++ [.halt .monitor] } : Worker).queued = w.queued := by
      simp [queued, WorkerTrigger.replies]
    simp only [held, pushed, resolved_nil, List.count_nil, Nat.add_zero]
    exact congrArg (fun l : List Nat => l.count r + _ + _) hq
  | newPromise | fulfil | reject | callFetch | pollPending | monitorLeave | monitorSendFailed
  | monitorDone => rfl

structure Vacated (w : Worker) : Prop where
  starting : w.phase = .starting → w.repliers.boxes = []
  queue : w.rxOpen = false → w.queue = []
  closed : w.phase = .closed → ∀ ptr, ¬ w.repliers.Live ptr

theorem Vacated.congr (h : w.Vacated) (hp : w'.phase = w.phase) (hq : w'.queue = w.queue)
    (hr : w'.repliers = w.repliers) : w'.Vacated := by
  have hrx : w'.rxOpen = w.rxOpen := by simp only [rxOpen, hp]
  exact ⟨by rw [hp, hr]; exact h.starting, by rw [hrx, hq]; exact h.queue,
    by rw [hp, hr]; exact h.closed⟩

theorem vacated_of_open (hs : w.phase ≠ .starting) (hr : w.rxOpen = true) : w.Vacated := by
  refine ⟨fun h => absurd h hs, fun h => by simp [hr] at h, fun hp => ?_⟩
  simp [rxOpen, hp] at hr

theorem vacated_of_empty (hs : w.phase ≠ .starting) (hc : w.phase ≠ .closed)
    (hq : w.queue = []) : w.Vacated :=
  ⟨fun h => absurd h hs, fun _ => hq, fun h => absurd h hc⟩

theorem Vacated.resumed (h : w.Vacated) (hr : Resumed w w' o) : w'.Vacated := by
  cases hr with
  | halt => exact vacated_of_empty (by nofun) (by nofun) rfl
  | call | skip | drained => exact vacated_of_open (by nofun) rfl
  | @polled future closing phase =>
    cases closing with
    | false => exact vacated_of_open (by nofun) rfl
    | true => exact vacated_of_empty (by nofun) (by nofun) (h.queue (by simp [rxOpen, phase]))

theorem vacated_of_returned {reply : Nat} {result : CallResult} (hr : Returned w reply result w' o) :
    w'.Vacated := by
  cases hr with
  | value | chained | notRegistered => exact vacated_of_open (by simp) rfl
  | noFunction => exact vacated_of_empty (by simp) (by simp) rfl

theorem Vacated.step (h : w.Vacated) (hw : w.Linked) (ha : a ≠ .cancel) (hs : Step w a w' o) :
    w'.Vacated := by
  cases hs with
  | cancel | cancelClosing => exact absurd rfl ha
  | push rx =>
    refine ⟨h.starting, fun hr => ?_, h.closed⟩
    exact absurd (rx.symm.trans hr) (by simp)
  | monitorSend halting rx =>
    refine ⟨h.starting, fun hr => ?_, h.closed⟩
    exact absurd (rx.symm.trans hr) (by simp)
  | unmonitored phase =>
    refine ⟨by simp, fun _ => rfl, fun _ ptr => ?_⟩
    simp [Repliers.Live, Repliers.read, h.starting phase]
  | job js head =>
    refine ⟨fun hp => ?_, h.queue, fun hp => absurd hp (phase_ne_closed_of_inJs js)⟩
    simp [inJs, show w.phase = .starting from hp] at js
  | resume drained hr => exact h.resumed hr
  | terminate flag hr =>
    exact Vacated.resumed (w := { w with terminating := false }.discardJobs)
      (h.congr rfl rfl rfl) hr
  | initError | retThrew | terminateCall => exact vacated_of_empty (by simp) (by simp) rfl
  | initLoop | recv => exact vacated_of_open (by simp) rfl
  | ret phase drained hr => exact vacated_of_returned hr
  | retTerminated phase flag hr => exact vacated_of_returned hr
  | @pollReady future polled closing phase =>
    cases closing with
    | false => exact vacated_of_open (by simp) rfl
    | true => exact vacated_of_empty (by simp) (by simp) (h.queue (by simp [rxOpen, phase]))
  | close phase =>
    refine ⟨by simp, fun _ => h.queue (by simp [rxOpen, phase]), fun _ ptr hl => ?_⟩
    simp [Repliers.Live, hw.wf.read_drop] at hl
  | newPromise | fulfil | reject | callFetch | pollPending | monitorLeave | monitorSendFailed
  | monitorDone => exact h.congr rfl rfl rfl

theorem vacated_init (task : WorkerTask) : (machine task).init.Vacated :=
  ⟨fun _ => rfl, fun _ => rfl, by nofun⟩

theorem Vacated.held_eq_zero (h : w.Vacated) (hp : w.phase = .closed) : w.held r = 0 := by
  have hboxes : w.repliers.held r = 0 := by
    refine List.count_eq_zero.mpr fun hm => ?_
    obtain ⟨ptr, hptr⟩ := List.mem_iff_getElem?.mp hm
    exact h.closed hp ptr (by simp [Repliers.Live, Repliers.read, hptr])
  rw [held_of_handling (l := []) (by simp [handling, hp]), hboxes, queued,
    h.queue (by simp [rxOpen, hp])]
  rfl

section Values

def Matched (w : Worker) : Prop :=
  ∀ ptr r, w.repliers.read ptr = some r → ∃ link, w.links[ptr]? = some link ∧ link.event = r

def FulfilledWith (w : Worker) (r : Nat) (body : String) : Prop :=
  ∃ link ∈ w.links, link.event = r ∧ ∃ value,
    w.isolate.promises[link.promise]? = some (.fulfilled value) ∧ body = value.rustStringLossy

theorem matched_init (task : WorkerTask) : (machine task).init.Matched := by
  intro ptr r h
  simp [machine, Repliers.read] at h

theorem Matched.congr (h : w.Matched) (hl : w'.links = w.links) (hr : w'.repliers = w.repliers) :
    w'.Matched := by
  simpa only [Matched, hl, hr] using h

theorem Matched.registered (h : w.Matched) (hw : w.Linked) {reply promise : Nat} {linked : Bool} :
    (w.registered reply promise linked).Matched := by
  intro ptr r hr
  simp only [Worker.registered, Repliers.read_register] at hr
  split at hr
  · rename_i hp
    refine ⟨⟨reply, promise, linked⟩, List.getElem?_concat_eq_some.mpr (.inr ?_), Option.some.inj hr⟩
    exact ⟨hp.trans hw.length.symm, rfl⟩
  · obtain ⟨link, hl, he⟩ := h ptr r hr
    exact ⟨link, List.getElem?_concat_eq_some.mpr (.inl hl), he⟩

theorem Matched.resumed (h : w.Matched) (hr : Resumed w w' o) : w'.Matched := by
  cases hr <;> exact h

theorem Matched.returned (h : w.Matched) (hw : w.Linked) {reply : Nat} {result : CallResult}
    (hr : Returned w reply result w' o) : w'.Matched := by
  cases hr with
  | value => exact h
  | chained | notRegistered | noFunction => exact (h.registered hw).congr rfl rfl

theorem Matched.discardJobs (h : w.Matched) : w.discardJobs.Matched := by
  intro ptr r hr
  obtain ⟨link, hl, he⟩ := h ptr r hr
  refine ⟨_, by simp [Worker.discardJobs, List.getElem?_mapIdx, hl]; rfl, ?_⟩
  split <;> exact he

theorem Matched.step (h : w.Matched) (hw : w.Linked) (hs : Step w a w' o) : w'.Matched := by
  cases hs with
  | job js head =>
    intro ptr r hr
    rw [Repliers.read_take] at hr
    split at hr
    · cases hr
    · exact h ptr r hr
  | resume drained hr => exact h.resumed hr
  | ret phase drained hr => exact h.returned hw hr
  | retTerminated phase flag hr =>
    have hopen : w.phase ≠ .closed := by simp [phase]
    have hlinked : ({ w with terminating := false } : Worker).Linked := hw.congr hopen rfl rfl rfl
    have hflag : ({ w with terminating := false } : Worker).Matched := h.congr rfl rfl
    exact hflag.discardJobs.returned (hlinked.discardJobs hopen) hr
  | terminate flag hr =>
    have hflag : ({ w with terminating := false } : Worker).Matched := h.congr rfl rfl
    exact hflag.discardJobs.resumed hr
  | close | cancelClosing =>
    intro ptr r hr
    rw [hw.wf.read_drop] at hr
    cases hr
  | push | unmonitored | initLoop | initError | recv | newPromise | fulfil | reject | callFetch
  | retThrew | terminateCall | pollPending | pollReady | cancel | monitorLeave | monitorSend
  | monitorSendFailed | monitorDone => exact h

structure Extends (w w' : Worker) : Prop where
  links : ∀ link ∈ w.links, ∃ link' ∈ w'.links, link'.event = link.event ∧
    link'.promise = link.promise
  promises : ∀ (promise : Nat) (value : Value), w.isolate.promises[promise]? = some (.fulfilled value) →
    w'.isolate.promises[promise]? = some (.fulfilled value)

theorem FulfilledWith.mono (h : w.FulfilledWith r body) (he : Extends w w') :
    w'.FulfilledWith r body := by
  obtain ⟨link, hl, hr, value, hv, hb⟩ := h
  obtain ⟨link', hl', hr', hp'⟩ := he.links link hl
  exact ⟨link', hl', hr'.trans hr, value, hp' ▸ he.promises _ _ hv, hb⟩

theorem Extends.trans {v : Worker} (h : Extends w v) (h' : Extends v w') : Extends w w' := by
  refine ⟨fun link hl => ?_, fun promise value hv => h'.promises _ _ (h.promises _ _ hv)⟩
  obtain ⟨link', hl', he', hp'⟩ := h.links link hl
  obtain ⟨link'', hl'', he'', hp''⟩ := h'.links link' hl'
  exact ⟨link'', hl'', he''.trans he', hp''.trans hp'⟩

theorem extends_of_eq (hl : w'.links = w.links)
    (hp : w'.isolate.promises = w.isolate.promises) : Extends w w' :=
  ⟨fun link h => ⟨link, hl ▸ h, rfl, rfl⟩, fun _ _ h => hp ▸ h⟩

theorem extends_settle {promise : Nat} {state : PromiseState} {i : Isolate}
    (hp : w.isolate.promises[promise]? = some .pending)
    (hi : i.promises = w.isolate.promises.set promise state) :
    Extends w { w with isolate := i } := by
  refine ⟨fun link h => ⟨link, h, rfl, rfl⟩, fun q value h => ?_⟩
  have hne : promise ≠ q := by
    rintro rfl
    simp [hp] at h
  simpa [hi, List.getElem?_set_ne hne] using h

theorem extends_of_concat {new : Link} (hl : w'.links = w.links ++ [new])
    (hp : w'.isolate.promises = w.isolate.promises) : Extends w w' :=
  ⟨fun link h => ⟨link, hl ▸ List.mem_append_left _ h, rfl, rfl⟩, fun _ _ h => hp ▸ h⟩

theorem extends_resumed (hr : Resumed w w' o) : Extends w w' := by
  cases hr <;> exact extends_of_eq rfl rfl

theorem extends_returned {reply : Nat} {result : CallResult} (hr : Returned w reply result w' o) :
    Extends w w' := by
  cases hr with
  | value => exact extends_of_eq rfl rfl
  | chained => exact extends_of_concat rfl (Isolate.chain_promises _ _ _)
  | notRegistered | noFunction => exact extends_of_concat rfl rfl

theorem extends_terminated : Extends w { w with terminating := false }.discardJobs := by
  refine ⟨fun link h => ?_, fun _ _ h => h⟩
  obtain ⟨ptr, hl⟩ := List.mem_iff_getElem?.mp h
  refine ⟨if ptr ∈ w.isolate.jobs.map Prod.fst then { link with linked := false } else link, ?_, ?_⟩
  · exact List.mem_iff_getElem?.mpr ⟨ptr, by simp [Worker.discardJobs, List.getElem?_mapIdx, hl]⟩
  · split <;> exact ⟨rfl, rfl⟩

theorem extends_step (hs : Step w a w' o) : Extends w w' := by
  cases hs with
  | newPromise =>
    refine ⟨fun link h => ⟨link, h, rfl, rfl⟩, fun promise value h => ?_⟩
    have hlt := (List.getElem?_eq_some_iff.mp h).1
    simpa [Isolate.newPromise, List.getElem?_append_left hlt] using h
  | fulfil js pending => exact extends_settle pending rfl
  | reject js pending => exact extends_settle pending rfl
  | resume drained hr => exact extends_resumed hr
  | ret phase drained hr => exact extends_returned hr
  | retTerminated phase flag hr =>
    exact extends_terminated.trans (extends_returned hr)
  | terminate flag hr =>
    exact extends_terminated.trans (extends_resumed hr)
  | push | unmonitored | initLoop | initError | recv | callFetch | job | retThrew | terminateCall
  | pollPending | pollReady | close | cancel | cancelClosing | monitorLeave
  | monitorSend | monitorSendFailed | monitorDone => exact extends_of_eq rfl rfl

theorem some_not_mem_dropped {l : List Nat} {body : String} : (r, some body) ∉ dropped l := by
  simp [dropped]

theorem fulfilledWith_of_reply (h : w.Matched) (hw : w.Linked) (hs : Step w a w' o) {body : String}
    (hm : (r, some body) ∈ o.replies) : body = "" ∨ w'.FulfilledWith r body := by
  cases hs with
  | @job ptr value jobs js head =>
    obtain ⟨r', hr', heq⟩ := List.mem_map.mp hm
    obtain ⟨rfl, hbody⟩ := Prod.mk.inj heq
    obtain ⟨link, hl, he⟩ := h ptr _ (Option.mem_toList.mp hr')
    obtain ⟨link', hl', -, hf⟩ := hw.isolate.jobs ptr value (by simp [head])
    obtain rfl : link = link' := Option.some.inj (hl.symm.trans hl')
    exact .inr ⟨link, List.mem_of_getElem? hl, he, value, hf, (Option.some.inj hbody).symm⟩
  | close =>
    obtain ⟨r', -, heq⟩ := List.mem_map.mp hm
    exact .inl (Option.some.inj (Prod.mk.inj heq).2).symm
  | cancelClosing =>
    obtain ⟨r', -, heq⟩ := List.mem_map.mp
      ((List.mem_append.mp hm).resolve_left some_not_mem_dropped)
    exact .inl (Option.some.inj (Prod.mk.inj heq).2).symm
  | resume drained hr => cases hr <;> simp [queueReplies, dropped] at hm
  | terminate flag hr => cases hr <;> simp [queueReplies, dropped] at hm
  | ret phase drained hr => cases hr <;> simp [queueReplies, dropped] at hm
  | retTerminated phase flag hr => cases hr <;> simp [queueReplies, dropped] at hm
  | _ => simp [queueReplies, dropped] at hm

end Values

end Worker

end Serverlessd
