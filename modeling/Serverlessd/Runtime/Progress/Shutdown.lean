import Serverlessd.Runtime.Progress.Answers

namespace Serverlessd

namespace Worker

variable {w w' : Worker} {o : WorkerOut}

theorem vacated_of_cancel (hw : w.Linked) (hr : w.rxOpen = false) (hs : Step w .cancel w' o) :
    w'.Vacated := by
  cases hs with
  | cancel phase => obtain phase | phase := phase <;> simp [rxOpen, phase] at hr
  | cancelClosing phase =>
    refine ⟨by simp, fun _ => rfl, fun _ ptr hl => ?_⟩
    simp [Repliers.Live, hw.wf.read_drop] at hl

theorem not_rxOpen_of_step {a : WorkerAct} (hr : w.rxOpen = false) (hs : Step w a w' o) :
    w'.rxOpen = false :=
  Bool.eq_false_iff.mpr fun hr' => by simp [rxOpen_of_step hs hr'] at hr

end Worker

namespace PodTask

variable {p p' : PodTask} {a : PodAct} {o : PodOut} {worker : Nat}

structure Orderly (p : PodTask) : Prop where
  regular : p.Regular
  left : p.rxOpen = false → ∀ w ∈ p.tasks, w.rxOpen = false
  sound : p.Sound

theorem orderly_start (nWorkers : Nat) : (start nWorkers).Orderly where
  regular := regular_start nWorkers
  left _ w hw := by cases hw
  sound w hw := by cases hw

theorem Orderly.push (h : p.Orderly) (rx : p.rxOpen = true) (trigger : PodTrigger) :
    ({ p with queue := p.queue ++ [trigger] } : PodTask).Orderly :=
  ⟨h.regular.push rx trigger, h.left, h.sound⟩

theorem Moved.rxOpen {w w' : Worker} (h : Moved a o worker w w') (hr : w.rxOpen = false) :
    w'.rxOpen = false := by
  cases h with
  | same => exact hr
  | stepped h => exact Worker.not_rxOpen_of_step hr h

theorem not_rxOpen_of_step (hr : p.rxOpen = false) (hs : Step p a p' o) : p'.rxOpen = false :=
  Bool.eq_false_iff.mpr fun hr' => by simp [rxOpen_of_step hs hr'] at hr

theorem rxOpen_of_cancel (hs : Step p (.worker worker .cancel) p' o) : p.rxOpen = false := by
  cases hs with
  | worker task runs => simpa [PodTask.runs] using runs

theorem Orderly.left_of_step (h : p.Orderly) (hs : Step p a p' o) (ha : a ≠ .hangup)
    (hr : p'.rxOpen = false) : ∀ w ∈ p'.tasks, w.rxOpen = false := by
  intro w' hw'
  cases hrx : p.rxOpen with
  | true =>
    cases hs with
    | halted phase => exact h.regular.halting.all_left phase w' hw'
    | hangup => exact absurd rfl ha
    | worker => exact absurd (hrx.symm.trans hr) (by simp)
    | checkVacancies phase | createWorker phase | unknown phase => simp [rxOpen, phase] at hr
    | forwarded phase ht | haltWorker phase ht => cases ht <;> cases hr
    | forward | halt | haltEmpty | token => cases hr
  | false =>
    obtain ⟨worker, hget⟩ := List.mem_iff_getElem?.mp hw'
    obtain ⟨w, hw, hm⟩ | ⟨hq, -⟩ := started_of_step hs hget
    · exact hm.rxOpen (h.left hrx w (List.mem_of_getElem? hw))
    · simp [h.regular.slots.closed hrx] at hq

theorem Orderly.sound_of_step (h : p.Orderly) (hs : Step p a p' o) : p'.Sound := by
  intro w' hw'
  obtain ⟨worker, hw'⟩ := List.mem_iff_getElem?.mp hw'
  obtain ⟨w, hw, hm⟩ | ⟨-, hnew⟩ := started_of_step hs hw'
  · obtain ⟨hl, hmatch, hv⟩ := h.sound w (List.mem_of_getElem? hw)
    cases hm with
    | same => exact ⟨hl, hmatch, hv⟩
    | @stepped b _ wo hstep _ cancel =>
      refine ⟨hl.step hstep, hmatch.step hl hstep, ?_⟩
      by_cases hb : b = .cancel
      · subst hb
        have hended := rxOpen_of_cancel (cancel rfl ▸ hs)
        exact Worker.vacated_of_cancel hl (h.left hended w (List.mem_of_getElem? hw)) hstep
      · exact hv.step hl hb hstep
  · rw [hnew]
    exact ⟨Worker.linked_init _, Worker.matched_init _, Worker.vacated_init _⟩

theorem Orderly.step (h : p.Orderly) (hs : Step p a p' o) (ha : a ≠ .hangup) : p'.Orderly :=
  ⟨h.regular.step hs, h.left_of_step hs ha, h.sound_of_step hs⟩

theorem Regular.held_of_ended (h : p.Regular) (hr : p.rxOpen = false) (r : Nat) :
    p.held r = p.working r := by
  have hp : p.phase = .ended := by simpa [rxOpen] using hr
  rw [held_of_handling (l := []) (by simp only [handling, hp]), queued, h.slots.closed hr]
  simp

end PodTask

namespace Runtime

variable {c : Config} {s s' : Runtime} {a : RuntimeAct}

structure Orderly (s : Runtime) : Prop where
  pods : ∀ p ∈ s.pods, p.Orderly
  ended : s.phase = .closed → ∀ p ∈ s.pods, p.rxOpen = false

theorem orderly_start (c : Config) : (start c).Orderly where
  pods p hp := by
    obtain ⟨-, rfl⟩ := List.mem_replicate.mp hp
    exact PodTask.orderly_start c.nWorkers
  ended := by simp [start]

theorem Orderly.congr (h : s.Orderly) (hpods : s'.pods = s.pods)
    (hp : s'.phase = .closed → s.phase = .closed) : s'.Orderly :=
  ⟨hpods ▸ h.pods, fun hc => hpods ▸ h.ended (hp hc)⟩

theorem Orderly.step (h : s.Orderly) (ha : a ≠ .serverExit) (hs : Step s a s') : s'.Orderly := by
  cases hs with
  | issue | enqueue | refuse | abandonSending | abandonWaiting | ret => exact h.congr rfl id
  | recv phase head hh => exact h.congr (by cases hh <;> rfl) (by cases hh <;> simp [phase])
  | noVacancy | allHalted | shutdown => exact h.congr rfl (by simp)
  | failed =>
    refine h.congr failed_pods fun hc => ?_
    unfold failed at hc
    split at hc <;> first | cases hc | exact hc
  | serverExit => exact absurd rfl ha
  | joined phase ended => exact ⟨h.pods, fun _ => ended⟩
  | @sent idx trigger next p sends get rx =>
    refine ⟨forall_pods_set ((h.pods p (List.mem_of_getElem? get)).push rx trigger) h.pods, ?_⟩
    intro hc
    cases hphase : s.phase <;> rw [hphase] at sends <;> cases sends <;> cases hc
  | @pod idx b p p' o get closed hstep =>
    have hpod := h.pods p (List.mem_of_getElem? get)
    have hended : s.phase = .closed → p.rxOpen = false := fun hc =>
      h.ended hc p (List.mem_of_getElem? get)
    have hb : b ≠ .hangup := by
      rintro rfl
      cases hstep with
      | hangup phase => simpa [PodTask.rxOpen, phase] using hended (closed rfl)
    refine ⟨?_, fun hc => ?_⟩
    · rw [emit_pods]
      exact forall_pods_set (hpod.step hstep hb) h.pods
    · have hclosed : s.phase = .closed := closed_before_emit hc
      rw [emit_pods]
      exact forall_pods_set (PodTask.not_rxOpen_of_step (hended hclosed) hstep) (h.ended hclosed)

section Shutdown

variable {b : (machine c).Behaviour} {n k call client : Nat} {op : Op}

/-- The thread of a pod that has ended drops the tasks of its workers. -/
def Drops (b : (machine c).Behaviour) : Prop :=
  ∀ n idx i p w, (b.state n).pods[idx]? = some p → p.rxOpen = false → p.tasks[i]? = some w →
    ∃ m, n ≤ m ∧ ∃ v, (b.state m).workerAt idx i = some v ∧ v.phase = .closed

theorem shutdown_phase (hact : b.act n = some .shutdown) :
    (b.state n).phase = .selecting ∧ (b.state (n + 1)).phase = .halting 0 := by
  have hs := machine_sound (b.step n _ hact)
  generalize b.state (n + 1) = s' at hs ⊢
  cases hs with
  | shutdown phase => exact ⟨phase, rfl⟩

theorem not_serverExit (hact : b.act n = some .shutdown) (k : Nat) : b.act k ≠ some .serverExit := by
  intro hexit
  obtain ⟨hsel, hhalting⟩ := shutdown_phase hact
  have hs := machine_sound (b.step k _ hexit)
  have hclosed : (b.state (k + 1)).phase = .closed := by
    generalize b.state (k + 1) = s' at hs ⊢
    cases hs with
    | serverExit => rfl
  have hk : (b.state k).phase = .selecting := by
    generalize b.state (k + 1) = s' at hs
    cases hs with
    | serverExit phase => exact phase
  obtain hlt | hle := Nat.lt_or_ge k n
  · have hstays := b.stays (P := fun s => s.phase = .closed)
      (fun h hs => closed_of_step (machine_sound hs) h) hclosed hlt
    simp [hsel] at hstays
  · obtain rfl | hlt := Nat.eq_or_lt_of_le hle
    · simp [hact] at hexit
    · have hstays := b.stays (P := fun s => s.phase.serving = false)
        (fun h hs => not_serving_of_step h (machine_sound hs))
        (by simp [hhalting, ServerlessPhase.serving]) hlt
      simp [hk, ServerlessPhase.serving] at hstays

theorem orderly (hact : b.act n = some .shutdown) (k : Nat) : (b.state k).Orderly := by
  have hno := not_serverExit hact
  induction k with
  | zero => exact b.start ▸ orderly_start c
  | succ k ih =>
    cases ha : b.act k with
    | none => exact b.idle k ha ▸ ih
    | some a =>
      exact ih.step (fun he => hno k (he ▸ ha)) (machine_sound (b.step k a ha))

theorem closes_of_shutdown (hf : Fair b) (hact : b.act n = some .shutdown) :
    ∃ m, n ≤ m ∧ (b.state m).phase = .closed := by
  obtain ⟨-, hhalting⟩ := shutdown_phase hact
  obtain ⟨m, hm, hclosed⟩ := hf.closes (n := n + 1) (by simp [hhalting, ServerlessPhase.serving])
  exact ⟨m, Nat.le_of_succ_le hm, hclosed⟩

/-- `serverless_task` returns after a signal, when all the pods have ended and all the workers
have left their event loops. -/
theorem shutdown_ends (hf : Fair b) (hact : b.act n = some .shutdown) :
    ∃ m, n ≤ m ∧ (b.state m).phase = .closed ∧
      ∀ p ∈ (b.state m).pods, p.rxOpen = false ∧ ∀ w ∈ p.tasks, w.rxOpen = false := by
  obtain ⟨m, hm, hclosed⟩ := closes_of_shutdown hf hact
  have ho := orderly hact m
  refine ⟨m, hm, hclosed, fun p hp => ?_⟩
  have hended := ho.ended hclosed p hp
  exact ⟨hended, (ho.pods p hp).left hended⟩

theorem answered_of_ended (ho : s.Orderly) {fs : FileSystem} (ht : s.Tracked fs) {idx wrk : Nat}
    {w : Worker} (hclosed : s.phase = .closed) (hleft : s.fifo.Left call)
    (hop : s.opOf call = some (.sendHttpToWorker idx wrk)) (hw : s.workerAt idx wrk = some w)
    (hp : w.phase = .closed) : 0 < s.answered call := by
  have hpassed : s.Passed call := ht.passed (.inr hclosed) (.inl hclosed)
  have htotal := ht.conserved.http call idx wrk hop
  have hworking : s.working call = 0 := by
    by_contra hne
    obtain ⟨_, hmap, hpos⟩ := List.exists_mem_ne_zero_of_sum_ne_zero hne
    obtain ⟨p, hmem, rfl⟩ := List.mem_map.mp hmap
    obtain ⟨i, get⟩ := List.mem_iff_getElem?.mp hmem
    rw [(ho.pods p hmem).regular.held_of_ended (ho.ended hclosed p hmem)] at hpos
    obtain ⟨_, hmap', hheld⟩ := List.exists_mem_ne_zero_of_sum_ne_zero hpos
    obtain ⟨v, hv, rfl⟩ := List.mem_map.mp hmap'
    obtain ⟨j, hj⟩ := List.mem_iff_getElem?.mp hv
    have hd := ht.sequenced.traced.held i p j v call get hj (Nat.pos_of_ne_zero hheld)
    cases hop.symm.trans (ht.sequenced.traced.delivered _ hd).1
    obtain rfl : w = v := Option.some.inj (hw.symm.trans (workerAt_eq_some.mpr ⟨p, get, hj⟩))
    exact hheld (((ho.pods p hmem).sound w hv).2.2.held_eq_zero hp)
  rw [total, held, sending_of_left hleft, ht.not_queued hpassed.queue, hpassed.handling, hworking,
    List.count_nil] at htotal
  omega

/-- After a signal, every call that was sent gets its answer, or is told that there is none. -/
theorem shutdown_answers (hf : Fair b) (hd : Drops b) (hact : b.act n = some .shutdown)
    (get : (b.state k).calls[call]? = some ⟨client, op, .waiting⟩) :
    ∃ m, k ≤ m ∧ ((b.state m).answerOf call op).isSome := by
  obtain ⟨i, hi, hpassed⟩ := hf.passes get
  obtain ⟨m, him, hanswer | ⟨idx, wrk, rfl, hdelivered⟩⟩ := hf.resolves get hi hpassed
  · exact ⟨m, Nat.le_trans hi him, hanswer⟩
  have hm := Nat.le_trans hi him
  obtain ⟨i, -, hclosed⟩ := closes_of_shutdown hf hact
  have hstays : ∀ {j j'}, j ≤ j' → (b.state j).phase = .closed → (b.state j').phase = .closed :=
    fun hj h => b.stays (P := fun s => s.phase = .closed)
      (fun h hs => closed_of_step (machine_sound hs) h) h hj
  have hle := Nat.le_max_left m i
  have hclosed := hstays (Nat.le_max_right m i) hclosed
  obtain ⟨-, task, htask⟩ := (tracked b m).sequenced.traced.delivered _ hdelivered
  have htask := b.stays (P := fun s => s.taskOf idx wrk = some task)
    (fun h hs => taskOf_of_step (machine_sound hs) h) htask hle
  obtain ⟨p, w, hp, hw, -⟩ := taskOf_eq_some.mp htask
  have hended := (orderly hact (max m i)).ended hclosed p (List.mem_of_getElem? hp)
  obtain ⟨j, hj, v, hv, hphase⟩ := hd _ idx wrk p w hp hended hw
  have hkj : k ≤ j := Nat.le_trans hm (Nat.le_trans hle hj)
  have hop := b.stays (P := fun s => s.opOf call = some (.sendHttpToWorker idx wrk))
    (fun h hs => (grows_of_step (machine_sound hs)).ops call _ h) (by simp [opOf, get]) hkj
  have hleft : (b.state j).fifo.Left call := b.stays (P := fun s => s.fifo.Left call)
    (fun h hs => left_of_step (machine_sound hs) h) ⟨_, fifo_get get, by simp⟩ hkj
  exact ⟨j, hkj, answerOf_isSome (answered_of_ended (orderly hact j) (tracked b j)
    (hstays hj hclosed) hleft hop hv hphase)⟩

def signalled : List RuntimeAct :=
  [.issue 0 (.createWorker "a"), .enqueue 0, .recv {}, .send, .pod 0 .recv, .send, .pod 0 .recv,
    .issue 1 (.sendHttpToWorker 0 0), .enqueue 1, .pod 0 (.worker 0 .unmonitored), .shutdown, .send,
    .pod 0 .recv, .pod 0 .send, .pod 0 .token, .pod 0 .send, .send, .send]

theorem signalled_run : ∃ s, (machine oneWorker).Run signalled s ∧
    (∀ a : RuntimeAct, a.ofTask → s.step a = none) ∧
    ∀ idx (a : RuntimeAct), a.worksAt idx → s.step a = none := by
  refine ⟨_, rfl, fun a ha => ?_, fun idx a ha => ?_⟩
  · cases a with
    | recv | send => rfl
    | _ => exact ha.elim
  · cases a with
    | pod i d =>
      obtain ⟨rfl, hd⟩ := ha
      cases d with
      | recv | send | token => cases i <;> rfl
      | _ => exact hd.elim
    | _ => exact ha.elim

theorem shutdown_ends_signalled : ∃ b : (machine oneWorker).Behaviour, Fair b ∧
    b.act 10 = some .shutdown ∧ ∃ m, 10 ≤ m ∧ (b.state m).phase = .closed ∧
      ∀ p ∈ (b.state m).pods, p.rxOpen = false ∧ ∀ w ∈ p.tasks, w.rxOpen = false := by
  obtain ⟨s, hrun, htask, hpods⟩ := signalled_run
  have hfair : Fair (Machine.Behaviour.ofRun hrun) := ofRun_fair hrun htask hpods (by decide +kernel)
  exact ⟨_, hfair, rfl, shutdown_ends hfair rfl⟩

theorem shutdown_answers_signalled : ∃ b : (machine oneWorker).Behaviour, Fair b ∧ Drops b ∧
    b.act 10 = some .shutdown ∧
      ∃ m, 9 ≤ m ∧ ((b.state m).answerOf 1 (.sendHttpToWorker 0 0)).isSome := by
  obtain ⟨s, hrun, htask, hpods⟩ := signalled_run
  have hfair : Fair (Machine.Behaviour.ofRun hrun) := ofRun_fair hrun htask hpods (by decide +kernel)
  have hdrops : Drops (Machine.Behaviour.ofRun hrun) := by
    intro n idx i p w get hr hw
    have hclosed := Machine.Behaviour.ofRun_invariant (P := fun s => ∀ p ∈ s.pods,
      p.rxOpen = false → ∀ w ∈ p.tasks, w.phase = .closed) hrun (by decide +kernel) n
    exact ⟨n, Nat.le_refl n, w, workerAt_eq_some.mpr ⟨p, get, hw⟩,
      hclosed p (List.mem_of_getElem? get) hr w (List.mem_of_getElem? hw)⟩
  have get : ((Machine.Behaviour.ofRun hrun).state 9).calls[1]? =
      some ⟨1, .sendHttpToWorker 0 0, .waiting⟩ := rfl
  have hact : (Machine.Behaviour.ofRun hrun).act 10 = some .shutdown := rfl
  exact ⟨_, hfair, hdrops, hact, shutdown_answers hfair hdrops hact get⟩

end Shutdown

end Runtime

end Serverlessd
