import Serverlessd.Runtime.Progress.Answers
import Serverlessd.Runtime.Serverless.Visits

namespace Serverlessd

def RuntimeAct.concerns (call : Nat) : RuntimeAct → Prop
  | .enqueue c | .refuse c | .abandon c | .ret c => c = call
  | _ => False

namespace Runtime

variable {c : Config} {s s' : Runtime} {a : RuntimeAct} {call other client : Nat} {op : Op}
variable {status : Fifo.Status} {answer : Answer}

section Room

theorem queue_of_handled {io : Io} {trigger : ServerlessTrigger} (hh : Handled s io call trigger s') :
    s'.queue = s.queue := by
  cases hh <;> rfl

theorem queue_le_of_step (hs : Step s a s') (h : s.queue.length ≤ serverlessCapacity) :
    s'.queue.length ≤ serverlessCapacity := by
  cases hs with
  | enqueue sending rx room => simpa using room
  | recv phase head hh =>
    rw [queue_of_handled hh]
    rw [head, List.length_cons] at h
    exact Nat.le_of_succ_le h
  | issue | refuse | abandonSending | abandonWaiting | ret | sent | noVacancy | allHalted
  | shutdown => exact h
  | joined | serverExit => exact Nat.zero_le _
  | failed => simpa using h
  | pod => simpa [setPod] using h

theorem queue_of_full (hs : Step s a s') (hfull : s.queue.length = serverlessCapacity) :
    s'.queue = s.queue ∨ s'.phase = .closed ∨ s'.queue.length < serverlessCapacity := by
  cases hs with
  | enqueue sending rx room => exact absurd hfull (Nat.ne_of_lt room)
  | recv phase head hh =>
    rw [queue_of_handled hh]
    rw [head, List.length_cons] at hfull
    exact .inr (.inr (hfull ▸ Nat.lt_succ_self _))
  | issue | refuse | abandonSending | abandonWaiting | ret | sent | noVacancy | allHalted
  | shutdown => exact .inl rfl
  | joined | serverExit => exact .inr (.inl rfl)
  | failed => exact .inl (by simp)
  | pod => exact .inl (by simp [setPod])

variable {b : (machine c).Behaviour} {n : Nat}

theorem Fair.room (hf : Fair b) (n : Nat) :
    ∃ m, n ≤ m ∧ ((b.state m).phase = .closed ∨ (b.state m).queue.length < serverlessCapacity) := by
  by_contra hno
  have hfull : ∀ m, n ≤ m → (b.state m).queue.length = serverlessCapacity := by
    intro m hm
    have hle : (b.state m).queue.length ≤ serverlessCapacity :=
      b.invariant (P := fun s => s.queue.length ≤ serverlessCapacity) (Nat.zero_le _)
        (fun h hs => queue_le_of_step (machine_sound hs) h) m
    exact Nat.le_antisymm hle (Nat.le_of_not_lt fun hlt => hno ⟨m, hm, .inr hlt⟩)
  have hsame : ∀ m, n ≤ m → (b.state m).queue = (b.state n).queue := by
    intro m hm
    induction m, hm using Nat.le_induction with
    | base => rfl
    | succ m hm ih =>
      cases ha : b.act m with
      | none => rw [b.idle m ha, ih]
      | some a =>
        obtain hq | hgoal := queue_of_full (machine_sound (b.step m a ha)) (hfull m hm)
        · exact hq.trans ih
        · exact absurd ⟨m + 1, Nat.le_succ_of_le hm, hgoal⟩ hno
  obtain ⟨⟨call, t⟩, q, hq⟩ : ∃ e q, (b.state n).queue = e :: q := by
    refine List.exists_cons_of_ne_nil fun hnil => ?_
    have := hfull n (Nat.le_refl n)
    rw [hnil] at this
    cases this
  obtain ⟨m, hm, hclosed | ⟨hlog, -⟩⟩ := hf.takes (q := q) (t := t) ⟨[], by rw [hq, List.append_nil]⟩
  · exact hno ⟨m, hm, .inl hclosed⟩
  · obtain ⟨e, he, rfl⟩ := List.mem_map.mp hlog
    have hmem : (e.call, t) ∈ (b.state m).queue := by
      rw [hsame m hm, hq]
      exact List.mem_cons_self
    exact not_queued_of_logged (tracked b m).sequenced.ordered he hmem

end Room

section Status

theorem calls_setStatus_of_ne (h : other ≠ call) :
    (s.setStatus other status).calls[call]? = s.calls[call]? := by
  simp [setStatus, h]

theorem calls_setStatus_self {old : Fifo.Status} (h : s.calls[call]? = some ⟨client, op, old⟩) :
    (s.setStatus call status).calls[call]? = some ⟨client, op, status⟩ := by
  simp [setStatus, h]

theorem returned_record : ((s.record (.returned call answer)).returned call).isSome := by
  simp [returned, List.findSome?_append]

theorem status_of_step (h : s.calls[call]? = some ⟨client, op, status⟩) (hs : Step s a s') :
    (¬ a.concerns call ∧ s'.calls[call]? = some ⟨client, op, status⟩) ∨
      (status = .sending ∧ s'.calls[call]? = some ⟨client, op, .waiting⟩) ∨
      (status ≠ .done ∧ s'.calls[call]? = some ⟨client, op, .done⟩ ∧
        (a = .abandon call ∨ (s'.returned call).isSome)) := by
  have hfound : ∀ {client' op' status'}, s.calls[call]? = some ⟨client', op', status'⟩ →
      client' = client ∧ op' = op ∧ status' = status := fun h' => by
    simpa using h'.symm.trans h
  cases hs with
  | issue =>
    refine .inl ⟨id, ?_⟩
    exact (List.getElem?_append_left (List.getElem?_eq_some_iff.mp h).1).trans h
  | @enqueue other _ _ sending =>
    by_cases hc : other = call
    · subst hc
      obtain ⟨rfl, rfl, rfl⟩ := hfound sending
      exact .inr (.inl ⟨rfl, calls_setStatus_self sending⟩)
    · exact .inl ⟨hc, (calls_setStatus_of_ne hc).trans h⟩
  | @refuse other _ _ sending =>
    by_cases hc : other = call
    · subst hc
      obtain ⟨rfl, rfl, rfl⟩ := hfound sending
      exact .inr (.inr ⟨nofun, calls_setStatus_self sending, .inr returned_record⟩)
    · exact .inl ⟨hc, (calls_setStatus_of_ne hc).trans h⟩
  | @abandonSending other _ _ old | @abandonWaiting other _ _ old =>
    by_cases hc : other = call
    · subst hc
      obtain ⟨rfl, rfl, rfl⟩ := hfound old
      exact .inr (.inr ⟨nofun, calls_setStatus_self old, .inl rfl⟩)
    · exact .inl ⟨hc, (calls_setStatus_of_ne hc).trans h⟩
  | @ret other _ _ _ waiting =>
    by_cases hc : other = call
    · subst hc
      obtain ⟨rfl, rfl, rfl⟩ := hfound waiting
      exact .inr (.inr ⟨nofun, calls_setStatus_self waiting, .inr returned_record⟩)
    · exact .inl ⟨hc, (calls_setStatus_of_ne hc).trans h⟩
  | recv phase head hh => exact .inl ⟨id, by cases hh <;> exact h⟩
  | failed => exact .inl ⟨id, by rwa [failed_calls]⟩
  | pod => exact .inl ⟨id, by rwa [emit_calls]⟩
  | sent | noVacancy | allHalted | joined | shutdown | serverExit => exact .inl ⟨id, h⟩

def Pending (s : Runtime) (call client : Nat) (op : Op) : Prop :=
  ∃ status, s.calls[call]? = some ⟨client, op, status⟩ ∧ (status = .done → (s.returned call).isSome)

theorem returned_stays (h : (s.returned call).isSome) (hs : Step s a s') :
    (s'.returned call).isSome := by
  obtain ⟨answer, h⟩ := Option.isSome_iff_exists.mp h
  exact Option.isSome_iff_exists.mpr ⟨answer, returned_step h hs⟩

theorem Pending.step (h : s.Pending call client op) (hs : Step s a s') (ha : a ≠ .abandon call) :
    s'.Pending call client op := by
  obtain ⟨status, hc, hdone⟩ := h
  obtain ⟨-, hc⟩ | ⟨-, hc⟩ | ⟨-, hc, hr⟩ := status_of_step hc hs
  · exact ⟨status, hc, fun hd => returned_stays (hdone hd) hs⟩
  · exact ⟨.waiting, hc, nofun⟩
  · exact ⟨.done, hc, fun _ => hr.resolve_left ha⟩

theorem answerOf_stays (h : (s.answerOf call op).isSome) (hs : Step s a s') :
    (s'.answerOf call op).isSome := by
  cases op with
  | removeWorker => rfl
  | createWorker | uploadWorker | sendHttpToWorker =>
    obtain ⟨e, he, hcall⟩ := List.lookup_isSome_iff.mp h
    exact List.lookup_isSome_iff.mpr ⟨e, (replies_of_step hs).subset he, hcall⟩

end Status

section Returns

variable {b : (machine c).Behaviour} {n : Nat}

/-- Clients run on, too, and the queue is fair to those that wait for room in it. -/
structure Attends (b : (machine c).Behaviour) : Prop where
  sends : ∀ call, b.StronglyFair fun a => a = .enqueue call ∨ a = .refuse call
  returns : ∀ call, b.WeaklyFair (· = .ret call)

theorem pending_stays (hno : ∀ m, n ≤ m → b.act m ≠ some (.abandon call))
    (h : (b.state n).Pending call client op) {m : Nat} (hm : n ≤ m) :
    (b.state m).Pending call client op := by
  induction m, hm using Nat.le_induction with
  | base => exact h
  | succ m hm ih =>
    cases ha : b.act m with
    | none => exact b.idle m ha ▸ ih
    | some a => exact ih.step (machine_sound (b.step m a ha)) fun he => hno m hm (he ▸ ha)

theorem returned_of_done (hno : ∀ m, n ≤ m → b.act m ≠ some (.abandon call))
    (h : (b.state n).Pending call client op) {m : Nat} (hm : n ≤ m)
    (hdone : (b.state m).calls[call]? = some ⟨client, op, .done⟩) : ((b.state m).returned call).isSome := by
  obtain ⟨status, hc, hr⟩ := pending_stays hno h hm
  obtain ⟨⟩ := hc.symm.trans hdone
  exact hr rfl

theorem Attends.leaves (ha : Attends b) (hf : Fair b) : b.LeadsTo
    (fun s => s.calls[call]? = some ⟨client, op, .sending⟩)
    fun s => s.calls[call]? = some ⟨client, op, .waiting⟩ ∨ s.calls[call]? = some ⟨client, op, .done⟩ := by
  refine (ha.sends call).leadsTo (fun k a hact hP => ?_) fun k hP => ?_
  · obtain ⟨hc, hP⟩ | ⟨-, hwaiting⟩ | ⟨-, hdone, -⟩ := status_of_step hP (machine_sound (b.step k a hact))
    · refine .inl ⟨?_, hP⟩
      rintro (rfl | rfl) <;> exact hc rfl
    · exact .inr (.inl hwaiting)
    · exact .inr (.inr hdone)
  · obtain ⟨m, hm, hroom⟩ := hf.room k
    by_cases hclosed : (b.state m).phase = .closed
    · exact ⟨m, hm, _, .inr rfl, by simp [machine, Runtime.step, hP m hm, rxOpen, hclosed]⟩
    · have hlt := hroom.resolve_left hclosed
      exact ⟨m, hm, _, .inl rfl, by simp [machine, Runtime.step, hP m hm, rxOpen, hclosed, hlt]⟩

theorem Attends.takes (ha : Attends b) : b.LeadsTo
    (fun s => s.calls[call]? = some ⟨client, op, .waiting⟩ ∧ (s.answerOf call op).isSome)
    fun s => s.calls[call]? = some ⟨client, op, .done⟩ := by
  refine (ha.returns call).leadsTo (fun k a hact ⟨hP, hanswer⟩ => ?_) fun {s} ⟨hP, hanswer⟩ => ?_
  · have hs := machine_sound (b.step k a hact)
    obtain ⟨hc, hP⟩ | ⟨hsending, -⟩ | ⟨-, hdone, -⟩ := status_of_step hP hs
    · exact .inl ⟨fun he => hc (he ▸ rfl), hP, answerOf_stays hanswer hs⟩
    · cases hsending
    · exact .inr hdone
  · exact ⟨_, rfl, by simp [machine, Runtime.step, hP, hanswer]⟩

theorem Attends.waits (ha : Attends b) (hf : Fair b)
    (hno : ∀ m, n ≤ m → b.act m ≠ some (.abandon call)) (h : (b.state n).Pending call client op) :
    ∃ m, n ≤ m ∧ (((b.state m).returned call).isSome ∨
      (b.state m).calls[call]? = some ⟨client, op, .waiting⟩) := by
  obtain ⟨status, hc, -⟩ := id h
  cases status with
  | sending =>
    obtain ⟨m, hm, hwaiting | hdone⟩ := ha.leaves hf n hc
    · exact ⟨m, hm, .inr hwaiting⟩
    · exact ⟨m, hm, .inl (returned_of_done hno h hm hdone)⟩
  | waiting => exact ⟨n, Nat.le_refl n, .inr hc⟩
  | done => exact ⟨n, Nat.le_refl n, .inl (returned_of_done hno h (Nat.le_refl n) hc)⟩

theorem Attends.returned_of_answer (ha : Attends b) (hf : Fair b)
    (hno : ∀ m, n ≤ m → b.act m ≠ some (.abandon call)) (h : (b.state n).Pending call client op)
    {m : Nat} (hm : n ≤ m) (hanswer : ((b.state m).answerOf call op).isSome) :
    ∃ m, n ≤ m ∧ ((b.state m).returned call).isSome := by
  obtain ⟨k, hk, hr | hwaiting⟩ :=
    ha.waits hf (fun k hk => hno k (Nat.le_trans hm hk)) (pending_stays hno h hm)
  · exact ⟨k, Nat.le_trans hm hk, hr⟩
  · have hanswer : ((b.state k).answerOf call op).isSome :=
      b.stays (P := fun s => (s.answerOf call op).isSome)
        (fun h hs => answerOf_stays h (machine_sound hs)) hanswer hk
    obtain ⟨i, hi, hdone⟩ := ha.takes k ⟨hwaiting, hanswer⟩
    have hn := Nat.le_trans hm (Nat.le_trans hk hi)
    exact ⟨i, hn, returned_of_done hno h hn hdone⟩

theorem retains (b : (machine c).Behaviour) (n : Nat) : (b.state n).Retains :=
  b.invariant (retains_start c) (fun h hs => h.step (machine_sound hs)) n

theorem Attends.settles (ha : Attends b) (hf : Fair b)
    (hno : ∀ m, n ≤ m → b.act m ≠ some (.abandon call)) (h : (b.state n).Pending call client op) :
    ∃ m, n ≤ m ∧ (((b.state m).returned call).isSome ∨ ∃ pod wrk, op = .sendHttpToWorker pod wrk ∧
      ∀ k, m ≤ k → (b.state k).HeldBy call pod wrk) := by
  obtain ⟨m, hm, hr | hwaiting⟩ := ha.waits hf hno h
  · exact ⟨m, hm, .inl hr⟩
  obtain ⟨i, hi, hpassed⟩ := hf.passes hwaiting
  obtain ⟨k, hk, hanswer | ⟨pod, wrk, rfl, hd⟩⟩ := hf.resolves hwaiting hi hpassed
  all_goals have hn := Nat.le_trans hm (Nat.le_trans hi hk)
  · obtain ⟨j, hj, hr⟩ := ha.returned_of_answer hf hno h hn hanswer
    exact ⟨j, hj, .inl hr⟩
  by_cases hresolved : ∃ j, k ≤ j ∧ 0 < (b.state j).answered call
  · obtain ⟨j, hj, hpos⟩ := hresolved
    obtain ⟨l, hl, hr⟩ := ha.returned_of_answer hf hno h (Nat.le_trans hn hj) (answerOf_isSome hpos)
    exact ⟨l, hl, .inl hr⟩
  · refine ⟨k, hn, .inr ⟨pod, wrk, rfl, fun j hj => (retains b j).held ?_ ?_⟩⟩
    · exact b.stays (P := fun s => (call, pod, wrk) ∈ s.delivered)
        (fun h hs => delivered_of_step (machine_sound hs) h) hd hj
    · exact Nat.eq_zero_of_not_pos fun hpos => hresolved ⟨j, hj, hpos⟩

end Returns

end Runtime

end Serverlessd
