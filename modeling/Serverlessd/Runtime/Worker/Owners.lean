import Serverlessd.Runtime.Worker.Settled

namespace Serverlessd

/-- `raw` counts the isolates behind a raw pointer and `freed` those dropped; `stored` the
references put into a data slot and `released` those dropped again; `arcs` is the strong
count of the `WorkerState` and `drops` counts its drops, `closings` the calls of `close_state`. -/
structure Owners where
  raw : Nat := 1
  freed : Nat := 0
  stored : Nat := 0
  released : Nat := 0
  arcs : Nat := 0
  drops : Nat := 0
  closings : Nat := 0
  deriving DecidableEq

namespace Owners

def clones (o : Owners) (n : Nat) : Owners := { o with arcs := o.arcs + n }

def dropArcs (o : Owners) (n : Nat) : Owners :=
  { o with arcs := o.arcs - n, drops := if o.arcs ≠ 0 ∧ o.arcs ≤ n then o.drops + 1 else o.drops }

def createInjected (o : Owners) : Owners := { o.clones 3 with stored := o.stored + 1 }

def closeState (o : Owners) : Owners :=
  { o.dropArcs 1 with raw := o.raw - 1, closings := o.closings + 1 }

def finish (o : Owners) : Owners :=
  { o.dropArcs 2 with freed := o.freed + 1, released := o.released + 1 }

def work (o : Owners) (w w' : Worker) : Owners :=
  let o := o.dropArcs (w.futures.length - w'.futures.length)
  if w.rxOpen ∧ ¬ w'.rxOpen then o.closeState else o

def after (o : Owners) (w w' : Worker) : WorkerAct → Owners
  | .unmonitored => o
  | .init _ =>
    let o := o.createInjected.clones w'.futures.length
    if w'.phase = .closing then o.closeState else o
  | .callFetch => o.clones 1
  | .close => o.finish
  | .cancel =>
    match w.phase with
    | .closing => (o.dropArcs w.futures.length).finish
    | .parked => o.dropArcs (w.futures.length + 2)
    | _ => o
  | _ => o.work w w'

def ofLoop (futures : Nat) : Owners := { stored := 1, arcs := 3 + futures }

def ofClosing (futures : Nat) : Owners := { raw := 0, stored := 1, arcs := 2 + futures, closings := 1 }

def finished : Owners :=
  { raw := 0, freed := 1, stored := 1, released := 1, drops := 1, closings := 1 }

def leaked : Owners := { stored := 1, arcs := 1 }

@[simp] theorem dropArcs_zero (o : Owners) : o.dropArcs 0 = o := by
  unfold dropArcs
  cases o
  simp

@[simp] theorem clones_ofLoop (m n : Nat) : (ofLoop m).clones n = ofLoop (m + n) := by
  simp [ofLoop, clones, Nat.add_assoc]

@[simp] theorem clones_ofClosing (m n : Nat) : (ofClosing m).clones n = ofClosing (m + n) := by
  simp [ofClosing, clones, Nat.add_assoc]

theorem dropArcs_ofLoop {m n : Nat} (h : n ≤ m) : (ofLoop m).dropArcs n = ofLoop (m - n) := by
  simp only [ofLoop, dropArcs, Owners.mk.injEq, true_and, and_true]
  grind

theorem dropArcs_ofClosing {m n : Nat} (h : n ≤ m) :
    (ofClosing m).dropArcs n = ofClosing (m - n) := by
  simp only [ofClosing, dropArcs, Owners.mk.injEq, true_and, and_true]
  grind

@[simp] theorem createInjected_init : ({} : Owners).createInjected = ofLoop 0 := rfl

@[simp] theorem closeState_ofLoop (n : Nat) : (ofLoop n).closeState = ofClosing n := by
  simp [ofLoop, ofClosing, closeState, dropArcs]
  omega

theorem finish_ofClosing : (ofClosing 0).finish = finished := rfl

theorem leaked_of_loop (n : Nat) : (ofLoop n).dropArcs (n + 2) = leaked := by
  simp only [ofLoop, dropArcs, leaked, Owners.mk.injEq, true_and, and_true]
  grind

end Owners

structure Owned where
  worker : Worker
  owners : Owners := {}
  deriving DecidableEq

namespace Owned

def step (s : Owned) (a : WorkerAct) : Option Owned :=
  (s.worker.step a).map fun next =>
    { worker := next.1, owners := s.owners.after s.worker next.1 a }

def machine (task : WorkerTask) : Machine Owned WorkerAct := ⟨{ worker := { task } }, step⟩

def Accounts (w : Worker) (o : Owners) : Prop :=
  match w.phase with
  | .starting => o = {}
  | .closing | .polling _ true => o = .ofClosing w.futures.length
  | .closed => o = {} ∨ o = .leaked ∨ o = .finished
  | _ => o = .ofLoop w.futures.length

variable {w w' : Worker} {o : Owners} {a : WorkerAct} {out : WorkerOut}

theorem accounts_of_open (hr : w.rxOpen = true) (hs : w.phase ≠ .starting) :
    Accounts w o ↔ o = .ofLoop w.futures.length := by
  unfold Accounts
  unfold Worker.rxOpen at hr
  split <;> simp_all

theorem accounts_of_closing (hr : w.rxOpen = false) (hc : w.phase ≠ .closed) :
    Accounts w o ↔ o = .ofClosing w.futures.length := by
  unfold Accounts
  unfold Worker.rxOpen at hr
  split <;> simp_all

theorem accounts_of_closed (hp : w.phase = .closed) :
    Accounts w o ↔ o = {} ∨ o = .leaked ∨ o = .finished := by
  simp only [Accounts, hp]

theorem Accounts.congr (h : Accounts w o) (hp : w'.phase = w.phase)
    (hf : w'.futures.length = w.futures.length) : Accounts w' o := by
  unfold Accounts at h ⊢
  rw [hp, hf]
  exact h

theorem work_same (hp : w'.phase = w.phase) (hf : w'.futures.length = w.futures.length) :
    o.work w w' = o := by
  have hr : w'.rxOpen = w.rxOpen := by simp only [Worker.rxOpen, hp]
  simp [Owners.work, hf, hr]

theorem Accounts.same (h : Accounts w o) (hp : w'.phase = w.phase)
    (hf : w'.futures.length = w.futures.length) : Accounts w' (o.work w w') := by
  rw [work_same hp hf]
  exact h.congr hp hf

theorem Accounts.work (h : Accounts w o) (hs : w.phase ≠ .starting) (hc : w.phase ≠ .closed)
    (hs' : w'.phase ≠ .starting) (hc' : w'.phase ≠ .closed)
    (hf : w'.futures.length ≤ w.futures.length) (hr : w'.rxOpen = true → w.rxOpen = true) :
    Accounts w' (o.work w w') := by
  have hsub : w.futures.length - (w.futures.length - w'.futures.length) = w'.futures.length := by
    omega
  cases hrx : w.rxOpen with
  | true =>
    obtain rfl := (accounts_of_open hrx hs).mp h
    cases hrx' : w'.rxOpen with
    | true =>
      rw [accounts_of_open hrx' hs']
      simp [Owners.work, hrx, hrx', Owners.dropArcs_ofLoop (Nat.sub_le _ _), hsub]
    | false =>
      rw [accounts_of_closing hrx' hc']
      simp [Owners.work, hrx, hrx', Owners.dropArcs_ofLoop (Nat.sub_le _ _), hsub]
  | false =>
    obtain rfl := (accounts_of_closing hrx hc).mp h
    have hrx' : w'.rxOpen = false := by
      cases hrx' : w'.rxOpen with
      | false => rfl
      | true => simp [hr hrx'] at hrx
    rw [accounts_of_closing hrx' hc']
    simp [Owners.work, hrx, Owners.dropArcs_ofClosing (Nat.sub_le _ _), hsub]

theorem Accounts.resumed (h : Accounts w o) (hr : Worker.Resumed w w' out) :
    Accounts w' (o.work w w') := by
  cases hr with
  | halt phase | call phase | skip phase | drained phase =>
    exact h.work (by simp [phase]) (by simp [phase]) (by simp) (by simp) (Nat.le_refl _)
      (by simp [Worker.rxOpen, phase])
  | @polled future closing phase =>
    have hle : (w.futures.eraseIdx future).length ≤ w.futures.length := by
      rw [List.length_eraseIdx]
      split <;> omega
    cases closing with
    | true | false =>
      exact h.work (by simp [phase]) (by simp [phase]) (by simp) (by simp) hle
        (by simp [Worker.rxOpen, phase])

theorem Accounts.returned (h : Accounts w o) {reply : Nat} {result : CallResult}
    (phase : w.phase = .calling reply) (hr : Worker.Returned w reply result w' out) :
    Accounts w' (o.work w w') := by
  have hopen : w.rxOpen = true := by simp [Worker.rxOpen, phase]
  cases hr with
  | value | chained | notRegistered | noFunction =>
    exact h.work (by simp [phase]) (by simp [phase]) (by simp) (by simp) (Nat.le_refl _) fun _ => hopen

theorem Accounts.cancel (h : Accounts w o) (hp : w.phase = .closing) :
    o.after w w' .cancel = .finished := by
  obtain rfl : o = .ofClosing w.futures.length := by simpa [Accounts, hp] using h
  simp [Owners.after, hp, Owners.dropArcs_ofClosing, Owners.finish_ofClosing]

theorem Accounts.cancel_early (h : Accounts w o) (hp : w.phase = .starting ∨ w.phase = .parked) :
    o.after w w' .cancel = {} ∨ o.after w w' .cancel = .leaked := by
  obtain hp | hp := hp
  · obtain rfl : o = {} := by simpa [Accounts, hp] using h
    exact .inl (by simp [Owners.after, hp])
  · obtain rfl : o = .ofLoop w.futures.length := by simpa [Accounts, hp] using h
    exact .inr (by simp [Owners.after, hp, Owners.leaked_of_loop])

theorem Accounts.step (h : Accounts w o) (hs : Worker.Step w a w' out) :
    Accounts w' (o.after w w' a) := by
  cases hs with
  | push | newPromise | fulfil | reject | job | monitorLeave | monitorSend | monitorSendFailed
  | monitorDone =>
    exact h.same rfl rfl
  | pollPending phase live => exact h.same rfl List.length_set
  | unmonitored phase =>
    obtain rfl : o = {} := by simpa [Accounts, phase] using h
    exact .inl rfl
  | initLoop phase outcome =>
    obtain rfl : o = {} := by simpa [Accounts, phase] using h
    rw [accounts_of_open rfl (by simp)]
    simp [Owners.after]
  | initError phase outcome =>
    obtain rfl : o = {} := by simpa [Accounts, phase] using h
    rw [accounts_of_closing rfl (by simp)]
    simp [Owners.after, Worker.gone]
  | ret phase drained hr => exact h.returned phase hr
  | retTerminated phase flag hr =>
    exact Accounts.returned (w := { w with terminating := false }.discardJobs) (h.congr rfl rfl) phase hr
  | recv phase | retThrew phase | terminateCall flag phase =>
    exact h.work (by simp [phase]) (by simp [phase]) (by simp) (by simp) (Nat.le_refl _)
      (by simp [Worker.rxOpen, phase])
  | callFetch js =>
    have hs : w.phase ≠ .starting := fun hp => by simp [Worker.inJs, hp] at js
    have hc : w.phase ≠ .closed := fun hp => by simp [Worker.inJs, hp] at js
    cases hr : w.rxOpen with
    | true =>
      obtain rfl := (accounts_of_open hr hs).mp h
      rw [@accounts_of_open { w with futures := w.futures ++ [false] } _ hr hs]
      simp [Owners.after]
    | false =>
      obtain rfl := (accounts_of_closing hr hc).mp h
      rw [@accounts_of_closing { w with futures := w.futures ++ [false] } _ hr hc]
      simp [Owners.after]
  | resume drained hr => exact h.resumed hr
  | terminate flag hr =>
    exact Accounts.resumed (w := { w with terminating := false }.discardJobs) (h.congr rfl rfl) hr
  | @pollReady future polled closing phase live =>
    cases closing with
    | true | false =>
      exact h.work (by simp [phase]) (by simp [phase]) (by simp) (by simp) (Nat.le_refl _)
        (by simp [Worker.rxOpen, phase])
  | close phase futures =>
    obtain rfl : o = .ofClosing 0 := by simpa [Accounts, phase, futures] using h
    exact .inr (.inr rfl)
  | cancel phase => exact (h.cancel_early phase).imp_right .inl
  | cancelClosing phase => exact .inr (.inr (h.cancel phase))

theorem Accounts.ne_leaked (h : Accounts w o) (hn : o ≠ .leaked) (ha : a ≠ .cancel)
    (hs : Worker.Step w a w' out) : o.after w w' a ≠ .leaked := by
  have hnext := h.step hs
  by_cases hc : w'.phase = .closed
  · cases hs with
    | push | newPromise | fulfil | reject | job | monitorLeave | monitorSend | monitorSendFailed
    | monitorDone => exact (work_same rfl rfl).trans_ne hn
    | pollPending phase => obtain hp | hp := phase <;> simp [hp] at hc
    | callFetch js => simp [Worker.inJs, show w.phase = .closed from hc] at js
    | unmonitored phase =>
      obtain rfl : o = {} := by simpa [Accounts, phase] using h
      show ({} : Owners) ≠ .leaked
      decide
    | close phase futures =>
      obtain rfl : o = .ofClosing 0 := by simpa [Accounts, phase, futures] using h
      show Owners.finished ≠ .leaked
      decide
    | resume drained hr =>
      cases hr with
      | @polled future closing => cases closing <;> cases hc
      | _ => cases hc
    | terminate flag hr =>
      cases hr with
      | @polled future closing => cases closing <;> cases hc
      | _ => cases hc
    | ret phase drained hr => cases hr <;> cases hc
    | retTerminated phase flag hr => cases hr <;> cases hc
    | cancel | cancelClosing => exact absurd rfl ha
    | _ => cases hc
  · intro he
    rw [he] at hnext
    unfold Accounts at hnext
    split at hnext
    · cases hnext
    · cases hnext
    · cases hnext
    · exact hc ‹_›
    · have harcs := congrArg Owners.arcs hnext
      simp only [Owners.leaked, Owners.ofLoop] at harcs
      omega

theorem stored_after (ha : ∀ answers, a ≠ .init answers) : (o.after w w' a).stored = o.stored := by
  unfold Owners.after
  split
  · rfl
  · exact absurd rfl (ha _)
  · rfl
  · rfl
  · split <;> rfl
  · simp only [Owners.work]
    split <;> rfl

theorem Accounts.stored_init (h : Accounts w o) {answers : InitAnswers}
    (hs : Worker.Step w (.init answers) w' out) : (o.after w w' (.init answers)).stored = 1 := by
  have hstarting : w.phase = .starting := by cases hs <;> assumption
  obtain rfl : o = {} := by simpa [Accounts, hstarting] using h
  simp only [Owners.after]
  split <;> rfl

section Runs

variable {s s' : Owned} {task : WorkerTask} {as : List WorkerAct}

theorem step_sound (h : s.step a = some s') : ∃ out, s.worker.step a = some (s'.worker, out) ∧
    Worker.Step s.worker a s'.worker out ∧ s'.owners = s.owners.after s.worker s'.worker a := by
  obtain ⟨⟨w, out⟩, hs, rfl⟩ := Option.map_eq_some_iff.mp h
  exact ⟨out, hs, Worker.step_sound hs, rfl⟩

theorem worker_run (h : (machine task).Run as s) : (Worker.machine task).Run as s.worker := by
  refine h.induction (P := fun as (s : Owned) => (Worker.machine task).Run as s.worker)
    Machine.run_nil ?_
  intro as s a s' _ ih hs
  obtain ⟨out, hstep, -⟩ := step_sound hs
  exact ih.concat (Option.map_eq_some_iff.mpr ⟨_, hstep, rfl⟩)

theorem accounts_of_run (h : (machine task).Run as s) : Accounts s.worker s.owners := by
  have hinit : Accounts (machine task).init.worker (machine task).init.owners := rfl
  refine h.invariant (P := fun s : Owned => Accounts s.worker s.owners) hinit fun ha hs => ?_
  obtain ⟨out, -, hstep, ho⟩ := step_sound hs
  exact ho ▸ ha.step hstep

theorem closings_of_run {answers : InitAnswers} (h : (machine task).Run as s)
    (hi : .init answers ∈ as) (hc : ∀ a ∈ as, a ≠ .cancel) :
    s.owners.closings = if s.worker.rxOpen then 0 else 1 := by
  have hacc := accounts_of_run h
  have hstored : s.owners.stored = 1 := by
    refine h.induction (P := fun as (s : Owned) => .init answers ∈ as → s.owners.stored = 1)
      (by simp) ?_ hi
    intro as s a s' hrun ih hs hi
    obtain ⟨out, -, hstep, ho⟩ := step_sound hs
    rw [ho]
    by_cases ha : ∃ answers, a = .init answers
    · obtain ⟨answers, rfl⟩ := ha
      exact (accounts_of_run hrun).stored_init hstep
    · rw [stored_after fun answers he => ha ⟨answers, he⟩]
      exact ih ((List.mem_append.mp hi).resolve_right fun hm =>
        ha ⟨answers, (List.mem_singleton.mp hm).symm⟩)
  have hleaked : s.owners ≠ .leaked := by
    refine h.induction (P := fun as (s : Owned) => (∀ a ∈ as, a ≠ .cancel) → s.owners ≠ .leaked)
      (fun _ => show ({} : Owners) ≠ .leaked by decide) ?_ hc
    intro as s a s' hrun ih hs hc
    obtain ⟨out, -, hstep, ho⟩ := step_sound hs
    rw [ho]
    exact (accounts_of_run hrun).ne_leaked (ih fun b hb => hc b (by simp [hb])) (hc a (by simp))
      hstep
  cases hrx : s.worker.rxOpen with
  | true =>
    have hs : s.worker.phase ≠ .starting := by
      intro hp
      simp only [Accounts, hp] at hacc
      simp [hacc] at hstored
    rw [(accounts_of_open hrx hs).mp hacc]
    rfl
  | false =>
    by_cases hp : s.worker.phase = .closed
    · obtain he | he | he := (accounts_of_closed hp).mp hacc
      · simp [he] at hstored
      · exact absurd he hleaked
      · simp [he, Owners.finished]
    · rw [(accounts_of_closing hrx hp).mp hacc]
      rfl

structure Released (s : Owned) : Prop where
  isolate : s.owners.raw = 0 ∧ s.owners.freed = 1
  slot : s.owners.released = s.owners.stored
  repliers : ∀ ptr, ¬ s.worker.repliers.Live ptr

/-- A task that is dropped at an await point releases what it held exactly when it was
dropped in `close_state`, which waits for the tracked tasks. -/
theorem released_iff (h : (machine task).Run as s) (hs : s.step .cancel = some s') :
    Released s' ↔ s.worker.phase = .closing := by
  have hacc := accounts_of_run h
  have hwf := (Worker.linked_run (worker_run h)).wf
  obtain ⟨out, -, hstep, ho⟩ := step_sound hs
  constructor
  · intro hr
    have hfreed := hr.isolate.2
    generalize s'.worker = w at *
    cases hstep with
    | cancel phase =>
      obtain he | he := hacc.cancel_early phase <;> rw [ho, he] at hfreed <;> cases hfreed
    | cancelClosing phase => exact phase
  · intro hp
    rw [hacc.cancel hp] at ho
    refine ⟨by simp [ho, Owners.finished], by simp [ho, Owners.finished], fun ptr hl => ?_⟩
    generalize s'.worker = w at *
    cases hstep with
    | cancel phase => simp [hp] at phase
    | cancelClosing phase => simp [Repliers.Live, hwf.read_drop] at hl

def pendingRun : List WorkerAct :=
  [.init {}, .push (.http 0), .recv, .resume, .newPromise, .callFetch, .ret (.promise 0 .ok),
    .resume]

def haltedRun : List WorkerAct := pendingRun ++ [.push (.halt .pod), .recv, .resume]

theorem released_of_halted : ∃ s s', (machine ⟨"", 0⟩).Run haltedRun s ∧
    s.step .cancel = some s' ∧ (Released s' ↔ s.worker.phase = .closing) := by
  have hrun : (machine ⟨"", 0⟩).Run haltedRun _ := rfl
  exact ⟨_, _, hrun, rfl, released_iff hrun rfl⟩

theorem cancelled_leaks :
    (∃ s, (machine ⟨"", 0⟩).Run [.cancel] s ∧ ¬ Released s) ∧
    ∃ s, (machine ⟨"", 0⟩).Run (pendingRun ++ [.cancel]) s ∧ ¬ Released s ∧
      s.owners = .leaked ∧ s.worker.repliers.Live 0 := by
  refine ⟨⟨_, rfl, fun hr => ?_⟩, _, rfl, fun hr => ?_, rfl, rfl⟩
  · exact absurd hr.isolate.2 (by decide)
  · exact absurd hr.isolate.2 (by decide)

end Runs

end Owned

end Serverlessd
