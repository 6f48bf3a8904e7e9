import Mathlib.Data.List.Perm.Basic
import Serverlessd.Runtime.Worker.MonitorLaws
import Serverlessd.Runtime.Worker.Settled

/-! A worker together with its monitor, on a tick channel that loses no ticks. -/

namespace Serverlessd

namespace Repliers

variable {R : Type*}

def taken (r : Repliers R) : Nat := r.boxes.countP Option.isNone

variable {r : Repliers R}

@[simp] theorem taken_cleanup : r.cleanupDeadRepliers.taken = r.taken := rfl

@[simp] theorem taken_register (reply : R) : (r.register reply).1.taken = r.taken := by
  simp [taken, register_boxes]

theorem taken_take {ptr : Nat} (h : r.Live ptr) : (r.take ptr).1.taken = r.taken + 1 := by
  obtain ⟨x, hx⟩ := Option.isSome_iff_exists.mp h
  obtain ⟨hlt, hget⟩ : ∃ hlt : ptr < r.boxes.length, r.boxes[ptr] = some x := by
    simpa [read, Option.join_eq_some_iff, List.getElem?_eq_some_iff] using hx
  simp [taken, Repliers.take, List.countP_set, hlt, hget]

end Repliers

structure Watched where
  worker : Worker
  watch : Watch := {}
  deriving DecidableEq

namespace Watched

inductive Act
  | worker (a : WorkerAct)
  | recv
  | sleep
  | advance (d : Nat)

def leave (s : Watched) (watch : Watch) : Option Watched :=
  match watch.monitor.phase with
  | .left => (s.worker.step .monitorLeave).map fun next => { worker := next.1, watch }
  | _ => some { s with watch }

def step (s : Watched) : Act → Option Watched
  | .worker .monitorLeave => none
  | .worker a =>
    (s.worker.step a).map fun next => { worker := next.1, watch := s.watch.ticks none next.2.ticks }
  | .recv => s.watch.recv.bind s.leave
  | .sleep => s.watch.sleep.bind s.leave
  | .advance d => some { s with watch := s.watch.advance d }

def machine (task : WorkerTask) : Machine Watched Act := ⟨{ worker := { task } }, step⟩

end Watched

namespace Watch

variable {w : Watch} {n : Nat}

@[simp] theorem ticks_none : w.ticks none n = { w with pending := w.pending + n } := by
  induction n generalizing w with
  | zero => rfl
  | succ n ih =>
    rw [ticks, ih, tick_of_hasRoom rfl]
    simp only [Nat.add_assoc, Nat.add_comm 1 n]

theorem Phased.ticks (h : w.Phased) : (w.ticks none n).Phased := by simpa [Phased] using h

@[simp] theorem emitted_ticks : (w.ticks none n).emitted = w.emitted + n := by
  simp only [ticks_none, emitted]
  omega

def Moves (w v : Watch) : Prop := w.recv = some v ∨ w.sleep = some v ∨ ∃ d, v = w.advance d

variable {v : Watch}

theorem Phased.moves (h : w.Phased) (hm : w.Moves v) : v.Phased := by
  obtain hr | hs | ⟨d, rfl⟩ := hm
  · exact h.recv hr
  · exact Phased.sleep hs
  · exact h.advance d

theorem Moves.kept (hm : w.Moves v) : v.lost = w.lost ∧ v.emitted = w.emitted ∧
    (v.monitor.InLoop → w.monitor.InLoop) := by
  obtain hr | hs | ⟨d, rfl⟩ := hm
  · refine ⟨?_, emitted_recv hr, fun _ => (recv_eq_some hr).1⟩
    rw [(recv_eq_some hr).2.2]
  · obtain ⟨-, mw, hmw, hv⟩ := sleep_eq_some hs
    obtain ⟨start, hphase, -⟩ := MonitoredWorker.sleep_eq_some hmw
    refine ⟨by rw [hv], emitted_sleep hs, fun _ => ?_⟩
    simp [MonitoredWorker.InLoop, hphase]
  · exact ⟨rfl, rfl, id⟩

theorem Phased.waiting_iff (h : w.Phased) (h0 : w.lost = 0) (hl : w.monitor.InLoop)
    (he : w.pending = 0) : w.monitor.phase = .waiting ↔ Even w.emitted := by
  have hodd : w.monitor.InWindow ↔ Odd w.emitted := (h.inWindow_iff hl he).mpr (by simp [h0])
  rw [← Nat.not_odd_iff_even, ← hodd]
  cases hm : w.monitor.phase with
  | waiting => simp [MonitoredWorker.InWindow, hm]
  | window start => simp [MonitoredWorker.InWindow, hm]
  | left => exact absurd hm hl

theorem sleep_eq_none (h : w.monitor.InLoop → w.pending = 0 → w.monitor.phase = .waiting) :
    w.sleep = none := by
  cases hs : w.sleep with
  | none => rfl
  | some v =>
    obtain ⟨he, mw, hmw, -⟩ := sleep_eq_some hs
    obtain ⟨start, hw, -⟩ := MonitoredWorker.sleep_eq_some hmw
    rw [h (by simp [MonitoredWorker.InLoop, hw]) he] at hw
    cases hw

end Watch

namespace Worker

variable {w w' : Worker} {o : WorkerOut} {a : WorkerAct}

def InEventLoop (w : Worker) : Prop :=
  match w.phase with
  | .closing | .closed | .polling _ true => False
  | _ => True

structure Polled (w : Worker) : Prop where
  starting : w.phase = .starting → w.futures = []
  polling : ∀ future closing, w.phase = .polling future closing → future < w.futures.length

/-- The ticks without a partner: one for each function that answered a client, one for
each `fetch()` in flight that was polled, and one in a call of the handler. -/
def unpaired (w : Worker) : Nat :=
  w.repliers.taken + w.futures.count true + match w.phase with
    | .calling _ => 1
    | .polling future _ => if w.futures[future]? = some false then 1 else 0
    | _ => 0

theorem polled_of_phase (hs : w.phase ≠ .starting)
    (hp : ∀ future closing, w.phase ≠ .polling future closing) : w.Polled :=
  ⟨fun h => absurd h hs, fun future closing h => absurd h (hp future closing)⟩

theorem Polled.congr (h : w.Polled) (hf : w'.futures = w.futures) (hp : w'.phase = w.phase) :
    w'.Polled := by
  refine ⟨fun hs => ?_, fun future closing hs => ?_⟩
  · rw [hf, h.starting (hp ▸ hs)]
  · rw [hf]
    exact h.polling future closing (hp ▸ hs)

theorem polled_resumed (hr : Resumed w w' o) : w'.Polled := by
  cases hr with
  | halt | call | skip | drained => exact polled_of_phase (by nofun) (by nofun)
  | polled => refine polled_of_phase ?_ ?_ <;> dsimp only <;> split <;> nofun

theorem polled_returned {reply : Nat} {result : CallResult} (hr : Returned w reply result w' o) :
    w'.Polled := by
  cases hr <;> exact polled_of_phase (by simp) (by simp)

theorem Polled.step (h : w.Polled) (hs : Step w a w' o) : w'.Polled := by
  cases hs with
  | callFetch js =>
    refine ⟨fun hp => by simp [inJs, show w.phase = .starting from hp] at js, ?_⟩
    intro future closing hp
    have := h.polling future closing hp
    simp only [List.length_append]
    omega
  | resume drained hr => exact polled_resumed hr
  | terminate flag hr => exact polled_resumed hr
  | pollPending phase live =>
    refine polled_of_phase ?_ ?_ <;> obtain hp | hp := phase <;> simp [hp]
  | pollReady phase live =>
    refine ⟨by simp, fun future closing hp => ?_⟩
    cases hp
    exact (List.getElem?_eq_some_iff.mp live).1
  | push | newPromise | fulfil | reject | job | monitorLeave | monitorSend | monitorSendFailed
  | monitorDone => exact h.congr rfl rfl
  | ret phase drained hr => exact polled_returned hr
  | retTerminated phase flag hr => exact polled_returned hr
  | unmonitored | initLoop | initError | recv | retThrew | terminateCall | close | cancel
  | cancelClosing =>
    exact polled_of_phase (by simp) (by simp)

theorem terminating_step (h : w.terminating = false) (ha : a ≠ .monitorLeave)
    (hs : Step w a w' o) : w'.terminating = false := by
  cases hs with
  | monitorLeave => exact absurd rfl ha
  | resume drained hr => cases hr <;> exact h
  | ret phase drained hr => cases hr <;> exact h
  | terminateCall flag | terminate flag | retTerminated phase flag => simp [h] at flag
  | initLoop | initError => simp [gone, h]
  | _ => exact h

theorem unpaired_of_phase (hc : ∀ reply, w.phase ≠ .calling reply)
    (hp : ∀ future closing, w.phase ≠ .polling future closing) :
    w.unpaired = w.repliers.taken + w.futures.count true := by
  unfold unpaired
  split
  · exact absurd ‹_› (hc _)
  · exact absurd ‹_› (hp _ _)
  · rfl

theorem unpaired_of_calling {reply : Nat} (hp : w.phase = .calling reply) :
    w.unpaired = w.repliers.taken + w.futures.count true + 1 := by
  simp only [unpaired, hp]

theorem unpaired_of_polling {future : Nat} {closing : Bool} (hp : w.phase = .polling future closing) :
    w.unpaired = w.repliers.taken + w.futures.count true +
      if w.futures[future]? = some false then 1 else 0 := by
  simp only [unpaired, hp]

theorem unpaired_congr (hp : w'.phase = w.phase) (hr : w'.repliers = w.repliers)
    (hf : w'.futures = w.futures) : w'.unpaired = w.unpaired := by
  simp only [unpaired, hp, hr, hf]

theorem even_of_eq {n : Nat} (h : w'.unpaired = w.unpaired) (hn : Even n) :
    Even (w.unpaired + n + w'.unpaired) := by
  rw [h, Nat.add_right_comm]
  exact (Even.add_self _).add hn

theorem unpaired_callFetch (hw : w.Polled) :
    ({ w with futures := w.futures ++ [false] } : Worker).unpaired = w.unpaired := by
  cases hp : w.phase with
  | polling future closing =>
    have hlt := hw.polling future closing hp
    simp [unpaired, hp, List.getElem?_append_left hlt]
  | _ => simp [unpaired, hp]

theorem even_job (hw : w.Linked) {ptr : Nat} {value : Value} {jobs : List (Nat × Value)}
    (js : w.inJs = true) (head : w.isolate.jobs = (ptr, value) :: jobs) {i : Isolate} :
    Even (w.unpaired + 1 +
      ({ w with repliers := (w.repliers.take ptr).1, isolate := i } : Worker).unpaired) := by
  have hp := phase_ne_closed_of_inJs js
  have htaken := @Repliers.taken_take _ w.repliers ptr (hw.live_of_job hp (by simp [head]))
  simp only [unpaired, htaken]
  grind

theorem even_pollPending {future : Nat} {polled : Bool}
    (phase : w.phase = .parked ∨ w.phase = .closing) (live : w.futures[future]? = some polled) :
    Even (w.unpaired + (if polled then 2 else 3) +
      ({ w with futures := w.futures.set future true } : Worker).unpaired) := by
  obtain ⟨hlt, rfl⟩ := List.getElem?_eq_some_iff.mp live
  have hpos := List.count_pos_iff.mpr (List.getElem_mem hlt)
  have hcount := List.count_set (a := true) (b := true) hlt
  rw [unpaired_of_phase (w := w) (by obtain hp | hp := phase <;> simp [hp])
      (by obtain hp | hp := phase <;> simp [hp]),
    unpaired_of_phase (by obtain hp | hp := phase <;> simp [hp])
      (by obtain hp | hp := phase <;> simp [hp])]
  cases hb : w.futures[future] <;> simp [hb] at hcount hpos ⊢ <;> grind

theorem even_pollReady {future : Nat} {polled closing : Bool}
    (phase : w.phase = if closing then .closing else .parked)
    (live : w.futures[future]? = some polled) :
    Even (w.unpaired + (if polled then 2 else 3) +
      ({ w with phase := .polling future closing } : Worker).unpaired) := by
  have hp : w.phase = .parked ∨ w.phase = .closing := by cases closing <;> simp [phase]
  rw [unpaired_of_phase (w := w) (by obtain hp | hp := hp <;> simp [hp])
      (by obtain hp | hp := hp <;> simp [hp]), unpaired_of_polling rfl, live]
  cases polled <;> simp <;> grind

theorem even_polled (hw : w.Polled) {future : Nat} {closing : Bool}
    (phase : w.phase = .polling future closing) :
    Even (w.unpaired + 1 + ({ w with
      phase := if closing then .closing else .parked
      futures := w.futures.eraseIdx future } : Worker).unpaired) := by
  have hlt := hw.polling future closing phase
  have herase := (List.getElem_cons_eraseIdx_perm hlt).count_eq true
  rw [unpaired_of_polling phase,
    unpaired_of_phase (by cases closing <;> nofun) (by cases closing <;> nofun),
    List.getElem?_eq_getElem hlt]
  cases hb : w.futures[future] <;> simp [hb] at herase ⊢ <;> grind

theorem even_resumed (hw : w.Polled) (hr : Resumed w w' o) (hl : w'.InEventLoop) :
    Even (w.unpaired + o.ticks + w'.unpaired) := by
  cases hr with
  | halt => exact hl.elim
  | call phase =>
    rw [unpaired_of_phase (w := w) (by simp [phase]) (by simp [phase]), unpaired_of_calling rfl]
    simp only [swept, Repliers.taken_cleanup]
    grind
  | skip phase | drained phase =>
    refine even_of_eq ?_ Even.zero
    exact (unpaired_of_phase (by simp) (by simp)).trans
      (unpaired_of_phase (w := w) (by simp [phase]) (by simp [phase])).symm
  | polled phase => exact even_polled hw phase

theorem even_returned {reply : Nat} {result : CallResult} (phase : w.phase = .calling reply)
    (hr : Returned w reply result w' o) (hl : w'.InEventLoop) :
    Even (w.unpaired + o.ticks + w'.unpaired) := by
  cases hr with
  | value =>
    rw [unpaired_of_calling phase, unpaired_of_phase (by simp) (by simp)]
    simp only
    grind
  | chained | notRegistered =>
    rw [unpaired_of_calling phase, unpaired_of_phase (by simp) (by simp)]
    simp only [registered, Repliers.taken_register]
    grind
  | noFunction => exact hl.elim

theorem even_ticks (hw : w.Linked) (hf : w.Polled) (hn : w.terminating = false)
    (hs : Step w a w' o) (hl : w'.InEventLoop) : Even (w.unpaired + o.ticks + w'.unpaired) := by
  cases hs with
  | initLoop phase =>
    refine even_of_eq ?_ even_two
    rw [unpaired_of_phase (by simp) (by simp),
      unpaired_of_phase (by simp [phase]) (by simp [phase]), hf.starting phase]
    simp [List.count_replicate]
  | recv phase =>
    refine even_of_eq ?_ Even.zero
    exact (unpaired_of_phase (by simp) (by simp)).trans
      (unpaired_of_phase (w := w) (by simp [phase]) (by simp [phase])).symm
  | callFetch js => exact even_of_eq (unpaired_callFetch hf) Even.zero
  | job js head => exact even_job hw js head
  | resume drained hr => exact even_resumed hf hr hl
  | ret phase drained hr => exact even_returned phase hr hl
  | pollPending phase live => exact even_pollPending phase live
  | pollReady phase live => exact even_pollReady phase live
  | unmonitored | close | cancel | cancelClosing | initError | retThrew => exact hl.elim
  | terminateCall flag | terminate flag | retTerminated phase flag => simp [hn] at flag
  | push | newPromise | fulfil | reject | monitorLeave | monitorSend
  | monitorSendFailed | monitorDone => exact even_of_eq (unpaired_congr rfl rfl rfl) Even.zero

theorem inEventLoop_resumed (hr : Resumed w w' o) (hl : w'.InEventLoop) : w.InEventLoop := by
  cases hr with
  | halt phase | call phase | skip phase | drained phase => simp [InEventLoop, phase]
  | @polled future closing phase =>
    cases closing with
    | false => simp [InEventLoop, phase]
    | true => exact hl.elim

theorem inEventLoop_step (hs : Step w a w' o) (hl : w'.InEventLoop) : w.InEventLoop := by
  cases hs with
  | initLoop phase | recv phase | ret phase | retTerminated phase => simp [InEventLoop, phase]
  | resume drained hr => exact inEventLoop_resumed hr hl
  | terminate flag hr =>
    exact inEventLoop_resumed (w := { w with terminating := false }.discardJobs) hr hl
  | @pollReady future polled closing phase =>
    cases closing with
    | false => simp [InEventLoop, phase]
    | true => exact hl.elim
  | unmonitored | close | cancel | cancelClosing | initError | retThrew | terminateCall =>
    exact hl.elim
  | push | newPromise | fulfil | reject | callFetch | job | pollPending | monitorLeave
  | monitorSend | monitorSendFailed | monitorDone => exact hl

def fulfilledLinks (w : Worker) : Nat :=
  w.links.countP fun link => link.linked &&
    match w.isolate.promises[link.promise]? with
    | some (.fulfilled _) => true
    | _ => false

theorem fulfilledLinks_eq (h : w.Linked) (hj : w.isolate.jobs = []) (hp : w.phase ≠ .closed) :
    w.fulfilledLinks = w.repliers.taken := by
  have hmap : (w.links.map fun link => link.linked &&
      match w.isolate.promises[link.promise]? with
      | some (.fulfilled _) => true
      | _ => false) = w.repliers.boxes.map Option.isNone := by
    refine List.ext_getElem (by simp [h.length]) fun ptr hl hb => ?_
    have hl : ptr < w.links.length := by simpa using hl
    have hb : ptr < w.repliers.boxes.length := by simpa using hb
    have hlive := h.live hp ptr w.links[ptr] (List.getElem?_eq_getElem hl)
    have hread : w.repliers.read ptr = w.repliers.boxes[ptr] := by simp [Repliers.read, hb]
    simp only [Repliers.Live, hread, Answered, hj] at hlive
    simp only [List.getElem_map]
    cases hbox : w.repliers.boxes[ptr] <;> simp [hbox] at hlive ⊢ <;> grind
  have hcount := congrArg (List.countP id) hmap
  simpa [List.countP_map, fulfilledLinks, Repliers.taken, Function.comp_def] using hcount

end Worker

namespace Watched

variable {s s' : Watched} {a : Act} {task : WorkerTask} {as : List Act}

/-- While the worker waits in `rx.recv()` and the monitor has consumed all ticks, it
waits for a start tick; and it never terminates a worker that waits. -/
def IdleSafe (s : Watched) : Prop :=
  s.worker.phase = .parked →
    (s.watch.monitor.InLoop → s.watch.pending = 0 → s.watch.monitor.phase = .waiting) ∧
    s.watch.sleep = none

def EvenlySettled (s : Watched) : Prop :=
  s.worker.phase = .parked → s.watch.monitor.InLoop → s.watch.pending = 0 →
    Even (s.worker.fulfilledLinks + s.worker.futures.count true)

theorem leave_cases {watch : Watch} (h : s.leave watch = some s') :
    s'.watch = watch ∧ (s'.worker = s.worker ∨ ¬ watch.monitor.InLoop ∧
      ∃ o, Worker.Step s.worker .monitorLeave s'.worker o) := by
  unfold leave at h
  split at h
  · rename_i hp
    obtain ⟨⟨w, o⟩, hs, rfl⟩ := Option.map_eq_some_iff.mp h
    exact ⟨rfl, .inr ⟨fun hl => hl hp, o, Worker.step_sound hs⟩⟩
  · cases h
    exact ⟨rfl, .inl rfl⟩

theorem step_worker {b : WorkerAct} (hb : b ≠ .monitorLeave) :
    s.step (.worker b) = (s.worker.step b).map fun next =>
      { worker := next.1, watch := s.watch.ticks none next.2.ticks } := by
  cases b with
  | monitorLeave => exact absurd rfl hb
  | _ => rfl

theorem step_cases (h : step s a = some s') :
    (∃ b o, a = .worker b ∧ b ≠ .monitorLeave ∧ Worker.Step s.worker b s'.worker o ∧
      s'.watch = s.watch.ticks none o.ticks) ∨
    (s.watch.Moves s'.watch ∧
      (s'.worker = s.worker ∨ ¬ s'.watch.monitor.InLoop ∧
        ∃ o, Worker.Step s.worker .monitorLeave s'.worker o)) := by
  cases a with
  | worker b =>
    by_cases hb : b = .monitorLeave
    · subst hb
      cases h
    · rw [step_worker hb] at h
      obtain ⟨⟨w, o⟩, hs, rfl⟩ := Option.map_eq_some_iff.mp h
      exact .inl ⟨b, o, rfl, hb, Worker.step_sound hs, rfl⟩
  | recv =>
    obtain ⟨watch, hw, h⟩ := Option.bind_eq_some_iff.mp h
    obtain ⟨rfl, hl⟩ := leave_cases h
    exact .inr ⟨.inl hw, hl⟩
  | sleep =>
    obtain ⟨watch, hw, h⟩ := Option.bind_eq_some_iff.mp h
    obtain ⟨rfl, hl⟩ := leave_cases h
    exact .inr ⟨.inr (.inl hw), hl⟩
  | advance d =>
    cases h
    exact .inr ⟨.inr (.inr ⟨d, rfl⟩), .inl rfl⟩

structure Paired (s : Watched) : Prop where
  linked : s.worker.Linked
  drained : s.worker.Drained
  polled : s.worker.Polled
  phased : s.watch.Phased
  lost : s.watch.lost = 0
  terminating : s.watch.monitor.InLoop → s.worker.terminating = false
  parity : s.watch.monitor.InLoop → s.worker.InEventLoop →
    Even (s.watch.emitted + s.worker.unpaired)

theorem paired_init : Paired (machine task).init where
  linked := Worker.linked_init task
  drained := fun _ => rfl
  polled := ⟨fun _ => rfl, by nofun⟩
  phased := fun _ => by simp [machine, MonitoredWorker.InWindow]
  lost := rfl
  terminating := fun _ => rfl
  parity := fun _ _ => by simp [machine, Watch.emitted, Worker.unpaired, Repliers.taken]

theorem Paired.worker (h : Paired s) {b : WorkerAct} {o : WorkerOut} (hb : b ≠ .monitorLeave)
    (hs : Worker.Step s.worker b s'.worker o)
    (hw : s'.watch = s.watch.ticks none o.ticks) : Paired s' where
  linked := h.linked.step hs
  drained := h.drained.step hs
  polled := h.polled.step hs
  phased := hw ▸ h.phased.ticks
  lost := by simpa [hw] using h.lost
  terminating := by
    intro hl
    exact Worker.terminating_step (h.terminating (by simpa [hw] using hl)) hb hs
  parity := by
    intro hl hin
    have hl : s.watch.monitor.InLoop := by simpa [hw] using hl
    have hp := h.parity hl (Worker.inEventLoop_step hs hin)
    have ht := Worker.even_ticks h.linked h.polled (h.terminating hl) hs hin
    simp only [hw, Watch.ticks_none, Watch.emitted] at hp ⊢
    grind

theorem Paired.watch (h : Paired s) (hw : s.watch.Moves s'.watch)
    (hs : s'.worker = s.worker ∨ ¬ s'.watch.monitor.InLoop ∧
      ∃ o, Worker.Step s.worker .monitorLeave s'.worker o) : Paired s' := by
  have hphased := h.phased.moves hw
  obtain ⟨hlost, hemitted, hloop⟩ := hw.kept
  obtain hs | ⟨hl, o, hs⟩ := hs
  · exact ⟨hs ▸ h.linked, hs ▸ h.drained, hs ▸ h.polled, hphased, hlost.trans h.lost,
      fun hl => hs ▸ h.terminating (hloop hl),
      fun hl hin => by rw [hemitted, hs]; exact h.parity (hloop hl) (hs ▸ hin)⟩
  · exact ⟨h.linked.step hs, h.drained.step hs, h.polled.step hs, hphased,
      hlost.trans h.lost, fun hl' => absurd hl' hl, fun hl' => absurd hl' hl⟩

theorem Paired.step (h : Paired s) (hs : s.step a = some s') : Paired s' := by
  obtain ⟨b, o, rfl, hb, hs, hw⟩ | ⟨hw, hs⟩ := step_cases hs
  · exact h.worker hb hs hw
  · exact h.watch hw hs

theorem Paired.waiting_iff (h : Paired s) (hp : s.worker.phase = .parked)
    (hl : s.watch.monitor.InLoop) (he : s.watch.pending = 0) :
    s.watch.monitor.phase = .waiting ↔
      Even (s.worker.fulfilledLinks + s.worker.futures.count true) := by
  have heven := h.parity hl (by simp [Worker.InEventLoop, hp])
  rw [Worker.unpaired_of_phase (by simp [hp]) (by simp [hp]), ← Worker.fulfilledLinks_eq h.linked
    (h.drained (.inl hp)) (by simp [hp])] at heven
  rw [h.phased.waiting_iff h.lost hl he]
  exact Nat.even_add.mp heven

theorem Paired.safe_iff (h : Paired s) : IdleSafe s ↔ EvenlySettled s := by
  constructor
  · intro hi hp hl he
    exact (h.waiting_iff hp hl he).mp ((hi hp).1 hl he)
  · intro hf hp
    have hwaiting := fun hl he => (h.waiting_iff hp hl he).mpr (hf hp hl he)
    exact ⟨hwaiting, Watch.sleep_eq_none hwaiting⟩

/-- The monitor is in phase with the parked worker all along a run exactly when the
promises fulfilled for clients, and the polled `fetch()` calls in flight, come in pairs. -/
theorem idleSafe_iff (task : WorkerTask) (as : List Act) :
    (machine task).Always IdleSafe as ↔ (machine task).Always EvenlySettled as := by
  have hpaired : (machine task).Always Paired as :=
    Machine.always_of_invariant paired_init Paired.step as
  exact forall₄_congr fun pre s hp hr => (hpaired pre s hp hr).safe_iff

def answeredRun : List Act :=
  [.worker (.init {}), .recv, .recv, .worker (.push (.http 0)), .worker .recv, .worker .resume,
    .worker .newPromise, .worker (.fulfil 0 ⟨"a"⟩), .worker (.ret (.promise 0 .ok)),
    .worker .job, .worker .resume, .recv, .recv, .recv]

theorem idle_terminated :
    ¬ (machine ⟨"", 0⟩).Always IdleSafe answeredRun ∧
    ∃ s, (machine ⟨"", 0⟩).Run (answeredRun ++ [.advance taskLimit, .sleep]) s ∧
      s.worker.phase = .parked ∧ s.worker.terminating = true := by
  refine ⟨fun h => ?_, _, rfl, rfl, rfl⟩
  have hwaiting := (h _ _ List.prefix_rfl rfl rfl).1 (by decide) rfl
  exact absurd hwaiting (by decide)

end Watched

end Serverlessd
