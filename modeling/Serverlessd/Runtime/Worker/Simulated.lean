import Serverlessd.Runtime.Worker.Lifetime
import Serverlessd.Runtime.Worker.Monitored
import Serverlessd.Runtime.Worker.Owners

namespace Serverlessd

namespace Lifetime

variable {s s' : Lifetime} {o : Owned} {w w' : Worker} {b : WorkerAct} {out : WorkerOut} {n : Nat}

structure Matches (o : Owned) (s : Lifetime) : Prop where
  callbacks : s.callbacks = []
  futures : s.futures.card = o.worker.futures.length
  phase : match o.worker.phase with
    | .starting => s.point = .registering
    | .parked => s.point = .running ∧ s.thread = none
    | .checkpoint _ | .calling _ | .draining => s.point = .running ∧ s.thread = some .task
    | .polling _ false => s.point = .running ∧ ∃ id, s.thread = some (.future id)
    | .polling _ true => s.point = .waiting ∧ ∃ id, s.thread = some (.future id)
    | .closing => s.point = .waiting ∧ s.thread = none
    | .closed => s.point = .done ∧ o.owners = .finished ∨ s.point = .unmonitored ∧ o.owners = {}

theorem Matches.place (h : Matches o s) (hacc : Owned.Accounts o.worker o.owners) :
    s.point = .running ∧ o.owners = .ofLoop o.worker.futures.length ∨
      s.point = .waiting ∧ o.owners = .ofClosing o.worker.futures.length ∨
      (s.point = .registering ∨ s.point = .unmonitored) ∧ o.owners = {} ∨
      s.point = .done ∧ o.owners = .finished := by
  have hphase := h.phase
  unfold Owned.Accounts at hacc
  cases hw : o.worker.phase with
  | closed =>
    simp only [hw] at hphase
    exact hphase.elim (fun hd => .inr (.inr (.inr hd))) fun hu => .inr (.inr (.inl ⟨.inr hu.1, hu.2⟩))
  | polling future closing => cases closing <;> simp_all
  | _ => simp_all

theorem Matches.counts (h : Matches o s) (ht : s.Tracked) (hown : s.Owns)
    (hacc : Owned.Accounts o.worker o.owners) :
    s.arc.strong = o.owners.arcs ∧ s.arc.drops = o.owners.drops := by
  have hpoint := ht.point
  have hb : s.borrowed.card = o.worker.futures.length := by simp [borrowed, h.callbacks, h.futures]
  have hzero : s.futures = 0 → o.worker.futures.length = 0 := fun hz => by rw [← h.futures, hz]; rfl
  rw [hown]
  simp only [Counted.of_strong, Counted.of_drops, handles, Multiset.card_add, hb]
  obtain ⟨hp, ho⟩ | ⟨hp, ho⟩ | ⟨hp | hp, ho⟩ | ⟨hp, ho⟩ := h.place hacc
  · simp [hp, ho, TaskPoint.stored, TaskPoint.handles, Owners.ofLoop]
    omega
  · simp [hp, ho, TaskPoint.stored, TaskPoint.handles, Owners.ofClosing]
  · simp only [hp] at hpoint
    simp [hp, ho, hzero hpoint.2, TaskPoint.stored, TaskPoint.handles]
  · simp only [hp] at hpoint
    simp [hp, ho, hzero hpoint.2, TaskPoint.stored, TaskPoint.handles]
  · simp only [hp] at hpoint
    simp [hp, ho, hzero hpoint.2, TaskPoint.stored, TaskPoint.handles, Owners.finished]

theorem exec_fetch (hjs : s.inJs = true) (hc : s.callbacks = []) :
    ∃ t, machine.exec s [.enter true, .spawn, .leave] = some t ∧ t.point = s.point ∧
      t.thread = s.thread ∧ t.callbacks = [] ∧ t.futures.card = s.futures.card + 1 := by
  simp [machine, step, hjs, hc]

theorem inJs_congr (hp : s'.point = s.point) (ht : s'.thread = s.thread)
    (hc : s'.callbacks = s.callbacks) : s'.inJs = s.inJs := by
  simp only [inJs, hp, ht, hc]

theorem exec_fetches (hjs : s.inJs = true) (hc : s.callbacks = []) (n : Nat) :
    ∃ as t, machine.exec s as = some t ∧ t.point = s.point ∧ t.thread = s.thread ∧
      t.callbacks = [] ∧ t.futures.card = s.futures.card + n := by
  induction n with
  | zero => exact ⟨[], s, rfl, rfl, rfl, hc, rfl⟩
  | succ n ih =>
    obtain ⟨as, t, has, hp, ht, hct, hf⟩ := ih
    have hjs' : t.inJs = true := (inJs_congr hp ht (hct.trans hc.symm)).trans hjs
    obtain ⟨u, hu, hp', ht', hcu, hf'⟩ := exec_fetch hjs' hct
    refine ⟨as ++ [.enter true, .spawn, .leave], u, ?_, hp'.trans hp, ht'.trans ht, hcu, ?_⟩
    · rw [Machine.exec_append, has]
      exact hu
    · rw [hf', hf, Nat.add_assoc]

theorem exec_leave (hp : s.point = .running) (ht : s.thread = some .task) (hc : s.callbacks = []) :
    ∃ t, machine.exec s [.ret, .openSlot, .closeTracker] = some t ∧ t.point = .waiting ∧
      t.thread = none ∧ t.callbacks = [] ∧ t.futures = s.futures := by
  simp [machine, step, onTask, hp, ht, hc]

theorem exec_replier (hjs : s.inJs = true) (hc : s.callbacks = []) :
    ∃ t, machine.exec s [.enter false, .leave] = some t ∧ t.point = s.point ∧
      t.thread = s.thread ∧ t.callbacks = [] ∧ t.futures = s.futures := by
  simp [machine, step, hjs, hc]

theorem exec_close (h : s.Tracked) (hp : s.point = .waiting) (ht : s.thread = none)
    (hc : s.callbacks = []) (hf : s.futures = 0) :
    ∃ t, machine.exec s [.wait, .dropIsolate, .dropState] = some t ∧ t.point = .done ∧
      t.callbacks = [] ∧ t.futures = 0 := by
  have htasks : s.tracker.tasks = 0 := by simp [h.tasks, hf, ht]
  simp [machine, step, hp, ht, hc, hf, htasks, h.closed hp]

theorem exec_finish {id : Nat} (ht : s.thread = some (.future id)) (hc : s.callbacks = [])
    (hlive : id ∈ s.futures) :
    ∃ t, machine.exec s [.finish, .untrack] = some t ∧ t.point = s.point ∧ t.thread = none ∧
      t.callbacks = [] ∧ t.futures.card = s.futures.card - 1 := by
  simp [machine, step, ht, hc, Multiset.card_erase_of_mem hlive]

theorem exec_create (hp : s.point = .registering) :
    ∃ t, machine.exec s [.allocate, .cloneItem, .inject, .keep] = some t ∧ t.point = .running ∧
      t.thread = some .task ∧ t.callbacks = s.callbacks ∧ t.futures = s.futures := by
  simp [machine, step, hp]

theorem exec_park (hp : s.point = .running) (ht : s.thread = some .task) (hc : s.callbacks = []) :
    machine.exec s [.park] = some { s with thread := none } := by
  simp [machine, step, onTask, hp, ht, hc]

theorem exec_init (h : s.Tracked) (hp : s.point = .registering) (n : Nat) :
    ∃ as t, machine.exec s as = some t ∧ t.point = .running ∧ t.thread = some .task ∧
      t.callbacks = [] ∧ t.futures.card = n := by
  have hpoint := h.point
  simp only [hp] at hpoint
  have hc := h.no_callbacks (by simp [hp]) (by simp [hpoint])
  obtain ⟨t, hexec, hpt, htt, hct, hft⟩ := exec_create hp
  have hjs : t.inJs = true := by simp [inJs, hpt, htt, hct, hc]
  obtain ⟨as, u, has, hpu, htu, hcu, hfu⟩ := exec_fetches hjs (hct.trans hc) n
  refine ⟨[.allocate, .cloneItem, .inject, .keep] ++ as, u, ?_, hpu.trans hpt, htu.trans htt, hcu, ?_⟩
  · rw [Machine.exec_append, hexec]
    exact has
  · simp [hfu, hft, hpoint.2]

theorem Matches.left (h : Matches o s) (hp : s.point = .running) (ht : s.thread = some .task)
    {owners : Owners} (hc : w'.phase = .closing) (hf : w'.futures.length = o.worker.futures.length) :
    ∃ as t, machine.exec s as = some t ∧ Matches ⟨w', owners⟩ t := by
  obtain ⟨t, hexec, hp', ht', hct, hft⟩ := exec_leave hp ht h.callbacks
  exact ⟨_, t, hexec, hct, by rw [hft, h.futures, hf], by simp only [hc]; exact ⟨hp', ht'⟩⟩

theorem Matches.stay (h : Matches o s) {owners : Owners} (hp : w'.phase = o.worker.phase)
    (hpoint : s'.point = s.point) (hthread : s'.thread = s.thread) (hc : s'.callbacks = [])
    (hf : s'.futures.card = w'.futures.length)
    (ho : o.worker.phase = .closed → owners = o.owners) : Matches ⟨w', owners⟩ s' := by
  have hphase := h.phase
  refine ⟨hc, hf, ?_⟩
  simp only [hp, hpoint, hthread]
  cases hw : o.worker.phase with
  | closed =>
    simp only [hw] at hphase ⊢
    exact ho hw ▸ hphase
  | polling future closing => cases closing <;> simpa only [hw] using hphase
  | _ => simpa only [hw] using hphase

theorem Matches.same (h : Matches o s) {owners : Owners} (hp : w'.phase = o.worker.phase)
    (hf : w'.futures.length = o.worker.futures.length)
    (ho : o.worker.phase = .closed → owners = o.owners) : Matches ⟨w', owners⟩ s :=
  h.stay hp rfl rfl h.callbacks (h.futures.trans hf.symm) ho

theorem Matches.inJs (h : Matches o s) (js : o.worker.inJs = true) : s.inJs = true := by
  have hphase := h.phase
  unfold Worker.inJs at js
  cases hw : o.worker.phase with
  | polling future closing =>
    cases closing with
    | true | false =>
      simp only [hw] at hphase
      obtain ⟨-, id, hthread⟩ := hphase
      simp [Lifetime.inJs, hthread, h.callbacks]
  | checkpoint | calling | draining =>
    simp only [hw] at hphase
    simp [Lifetime.inJs, hphase, h.callbacks]
  | starting | parked | closing | closed => simp [hw] at js

theorem Matches.resumed (h : Matches o s) (ht : s.Tracked) (hpolled : w.Polled)
    (hr : Worker.Resumed w w' out) (hp : w.phase = o.worker.phase)
    (hf : w.futures = o.worker.futures) {owners : Owners} :
    ∃ as t, machine.exec s as = some t ∧ Matches ⟨w', owners⟩ t := by
  have hphase := h.phase
  rw [← hp] at hphase
  cases hr with
  | halt phase =>
    simp only [phase] at hphase
    exact h.left hphase.1 hphase.2 rfl (congrArg _ hf)
  | call phase =>
    simp only [phase] at hphase
    exact ⟨[], s, rfl, h.callbacks, h.futures.trans (congrArg _ hf).symm, hphase⟩
  | skip phase | drained phase =>
    simp only [phase] at hphase
    refine ⟨[.park], { s with thread := none }, ?_, h.callbacks, h.futures.trans (congrArg _ hf).symm,
      hphase.1, rfl⟩
    simp [machine, step, onTask, hphase, h.callbacks]
  | @polled future closing phase =>
    have hlt := hpolled.polling future closing phase
    rw [hf] at hlt
    have herase := List.length_eraseIdx_of_lt hlt
    cases closing with
    | true | false =>
      simp only [phase] at hphase
      obtain ⟨hpoint, id, hthread⟩ := hphase
      obtain ⟨t, hexec, hpt, htt, hct, hft⟩ :=
        exec_finish hthread h.callbacks (ht.current id hthread)
      exact ⟨_, t, hexec, hct, by simp only [hft, h.futures, hf, herase], hpt.trans hpoint, htt⟩

theorem Matches.returned (h : Matches o s) {w : Worker} {reply : Nat} {result : CallResult}
    (hr : Worker.Returned w reply result w' out) (phase : o.worker.phase = .calling reply)
    (hf : w.futures = o.worker.futures) :
    ∃ as t, machine.exec s as = some t ∧ Matches ⟨w', o.owners.work o.worker w'⟩ t := by
  have hphase := h.phase
  simp only [phase] at hphase
  cases hr with
  | value =>
    exact ⟨_, _, exec_park hphase.1 hphase.2 h.callbacks, h.callbacks,
      h.futures.trans (congrArg _ hf).symm, hphase.1, rfl⟩
  | chained | notRegistered =>
    exact ⟨[], s, rfl, h.callbacks, h.futures.trans (congrArg _ hf).symm, hphase⟩
  | noFunction => exact h.left hphase.1 hphase.2 rfl (congrArg List.length hf)

theorem Matches.step (h : Matches o s) (ht : s.Tracked) (hpolled : o.worker.Polled)
    (hacc : Owned.Accounts o.worker o.owners) (hs : Worker.Step o.worker b w' out)
    (hb : b ≠ .cancel) :
    ∃ as t, machine.exec s as = some t ∧ Matches ⟨w', o.owners.after o.worker w' b⟩ t := by
  have hphase := h.phase
  cases hs with
  | push | newPromise | fulfil | reject | monitorLeave | monitorSend | monitorSendFailed
  | monitorDone =>
    exact ⟨[], s, rfl, h.same rfl rfl fun _ => Owned.work_same rfl rfl⟩
  | pollPending phase live =>
    exact ⟨[], s, rfl, h.same rfl List.length_set fun _ => Owned.work_same rfl List.length_set⟩
  | cancel | cancelClosing => exact absurd rfl hb
  | resume drained hr => exact h.resumed ht hpolled hr rfl rfl
  | terminate flag hr =>
    exact h.resumed (w := { o.worker with terminating := false }.discardJobs) ht
      (hpolled.congr rfl rfl) hr rfl rfl
  | unmonitored phase =>
    simp only [phase] at hphase
    have ho : o.owners = {} := by simpa [Owned.Accounts, phase] using hacc
    exact ⟨[.unmonitored], { s with point := .unmonitored }, by simp [machine, Lifetime.step, hphase],
      h.callbacks, h.futures, .inr ⟨rfl, ho⟩⟩
  | initLoop phase =>
    simp only [phase] at hphase
    obtain ⟨as, t, hexec, hpt, htt, hct, hft⟩ := exec_init ht hphase _
    refine ⟨as ++ [.park], { t with thread := none }, ?_, hct, ?_, hpt, rfl⟩
    · rw [Machine.exec_append, hexec]
      exact exec_park hpt htt hct
    · simpa using hft
  | initError phase =>
    simp only [phase] at hphase
    obtain ⟨as, t, hexec, hpt, htt, hct, hft⟩ := exec_init ht hphase _
    obtain ⟨u, hexec', hpu, htu, hcu, hfu⟩ := exec_leave hpt htt hct
    refine ⟨as ++ [.ret, .openSlot, .closeTracker], u, ?_, hcu, ?_, hpu, htu⟩
    · rw [Machine.exec_append, hexec]
      exact hexec'
    · simpa [Worker.gone, hfu] using hft
  | recv phase =>
    simp only [phase] at hphase
    refine ⟨[.wake], { s with thread := some .task }, ?_, h.callbacks, h.futures, hphase.1, rfl⟩
    simp [machine, Lifetime.step, hphase]
  | callFetch js =>
    have hopen := Worker.phase_ne_closed_of_inJs js
    obtain ⟨t, hexec, hpt, htt, hct, hft⟩ := exec_fetch (h.inJs js) h.callbacks
    refine ⟨_, t, hexec, h.stay rfl hpt htt hct ?_ fun hp => absurd hp hopen⟩
    simp [hft, h.futures]
  | job js =>
    have hjs := h.inJs js
    have hopen := Worker.phase_ne_closed_of_inJs js
    obtain ⟨t, hexec, hpt, htt, hct, hft⟩ := exec_replier hjs h.callbacks
    exact ⟨_, t, hexec, h.stay rfl hpt htt hct (hft ▸ h.futures) fun hp => absurd hp hopen⟩
  | retThrew phase | terminateCall flag phase =>
    simp only [phase] at hphase
    exact h.left hphase.1 hphase.2 rfl rfl
  | ret phase drained hr => exact h.returned hr phase rfl
  | retTerminated phase flag hr =>
    exact h.returned (w := { o.worker with terminating := false }.discardJobs) hr phase rfl
  | @pollReady future polled closing phase live =>
    have hpos : 0 < s.futures.card := by
      rw [h.futures]
      exact Nat.zero_lt_of_lt (List.getElem?_eq_some_iff.mp live).1
    obtain ⟨id, hid⟩ := Multiset.card_pos_iff_exists_mem.mp hpos
    have hthread : s.thread = none ∧ s.point = if closing then .waiting else .running := by
      cases closing with
      | true | false => 
        simp only [Bool.false_eq_true, ↓reduceIte] at phase
        simp only [phase] at hphase
        simp [hphase]
    refine ⟨[.poll id], { s with thread := some (.future id) }, ?_, h.callbacks, h.futures, ?_⟩
    · simp [machine, Lifetime.step, hthread, hid]
    · cases closing with
      | true | false => exact ⟨hthread.2, id, rfl⟩
  | close phase futures =>
    simp only [phase] at hphase
    have ho : o.owners = .ofClosing 0 := by simpa [Owned.Accounts, phase, futures] using hacc
    have hf : s.futures = 0 := Multiset.card_eq_zero.mp (by simp [h.futures, futures])
    obtain ⟨t, hexec, hpt, hct, hft⟩ := exec_close ht hphase.1 hphase.2 h.callbacks hf
    refine ⟨_, t, hexec, hct, by simp [hft, futures], .inl ⟨hpt, ?_⟩⟩
    rw [ho]
    rfl

theorem simulates {task : WorkerTask} {as : List WorkerAct} (h : (Owned.machine task).Run as o)
    (hc : ∀ a ∈ as, a ≠ .cancel) : ∃ bs s, machine.Run bs s ∧ Matches o s ∧
      s.arc.strong = o.owners.arcs ∧ s.arc.drops = o.owners.drops := by
  have hmatched : ∃ bs s, machine.Run bs s ∧ Matches o s := by
    refine h.induction (P := fun as o => (∀ a ∈ as, a ≠ .cancel) →
      ∃ bs s, machine.Run bs s ∧ Matches o s) ?_ ?_ hc
    · exact fun _ => ⟨[], {}, rfl, rfl, rfl, rfl⟩
    · intro as o b o' hrun ih hs hc
      obtain ⟨bs, s, hbs, hm⟩ := ih fun a ha => hc a (by simp [ha])
      obtain ⟨out, -, hstep, ho⟩ := Owned.step_sound hs
      have hpolled : o.worker.Polled :=
        Worker.run_invariant ⟨fun _ => rfl, by simp [Worker.machine]⟩ Worker.Polled.step
          (Owned.worker_run hrun)
      obtain ⟨cs, t, hexec, hm'⟩ := hm.step (tracked_run hbs) hpolled (Owned.accounts_of_run hrun)
        hstep (hc b (by simp))
      rw [← ho] at hm'
      exact ⟨bs ++ cs, t, Machine.run_append_iff.mpr ⟨s, hbs, hexec⟩, hm'⟩
  obtain ⟨bs, s, hbs, hm⟩ := hmatched
  exact ⟨bs, s, hbs, hm, hm.counts (tracked_run hbs) (owns_run hbs) (Owned.accounts_of_run h)⟩

end Lifetime

end Serverlessd
