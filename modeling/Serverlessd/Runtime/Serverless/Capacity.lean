import Serverlessd.Runtime.Pod.Capacity
import Serverlessd.Runtime.Serverless.Routing

namespace Serverlessd

namespace Runtime

variable {s s' : Runtime} {a : RuntimeAct} {idx n : Nat} {p p' : PodTask} {o : PodOut}
variable {c : Config} {as : List RuntimeAct}

/-- A pod with fewer than `n` running workers answers that it has a vacancy; and
`Serverless::create_worker` gives `None` only if `n` workers run in every pod. -/
structure Recovers (n : Nat) (s : Runtime) : Prop where
  vacancy : ∀ p ∈ s.pods, p.running < n → p.pod.hasVacancy = true
  refusal : ∀ call s', s.step .send = some s' → s'.replies = s.replies ++ [(call, .created none)] →
    ∀ p ∈ s.pods, p.running = n

def KeepsFull (n : Nat) (s : Runtime) : Prop :=
  ∀ p ∈ s.pods, p.pod.workers.length = n → ∀ w ∈ p.tasks, w.rxOpen = true

def PhaseAdmitted (n : Nat) (pods : List PodTask) : ServerlessPhase → Prop
  | .finding _ i | .awaitingVacancy _ i =>
    ∀ (j : Nat) (p : PodTask), j < i → pods[j]? = some p → p.tasks.length = n
  | .placing _ i => ∀ p : PodTask, pods[i]? = some p → p.tasks.length < n
  | _ => True

structure Admitted (n : Nat) (s : Runtime) : Prop where
  calm : s.phase.serving = true → ∀ p ∈ s.pods, p.Calm
  pods : ∀ p ∈ s.pods, p.Bounded n
  asking : ∀ (idx : Nat) (p : PodTask), s.pods[idx]? = some p →
    p.asking = 0 ∨ p.asking = 1 ∧ ∃ task, s.phase = .awaitingVacancy task idx
  phase : PhaseAdmitted n s.pods s.phase

theorem admitted_start (c : Config) : (start c).Admitted c.nWorkers where
  calm := by
    intro _ p hp
    obtain ⟨-, rfl⟩ := List.mem_replicate.mp hp
    exact PodTask.calm_start _
  pods := by
    intro p hp
    obtain ⟨-, rfl⟩ := List.mem_replicate.mp hp
    exact PodTask.bounded_start _
  asking := by
    intro idx p hp
    obtain ⟨-, rfl⟩ : idx < c.nThreads ∧ PodTask.start c.nWorkers = p := by
      simpa [start, List.getElem?_replicate] using hp
    exact .inl rfl
  phase := trivial

theorem Admitted.noneAsking (h : s.Admitted n) (hp : ∀ task idx, s.phase ≠ .awaitingVacancy task idx)
    (idx : Nat) (p : PodTask) (hget : s.pods[idx]? = some p) : p.asking = 0 :=
  (h.asking idx p hget).resolve_right fun ⟨_, task, ht⟩ => hp task idx ht

theorem Admitted.move (h : s.Admitted n) (hpods : s'.pods = s.pods)
    (hserving : s'.phase.serving = true → s.phase.serving = true)
    (hp : ∀ task idx, s.phase ≠ .awaitingVacancy task idx)
    (hphase : PhaseAdmitted n s'.pods s'.phase) : s'.Admitted n where
  calm := fun hs => hpods ▸ h.calm (hserving hs)
  pods := hpods ▸ h.pods
  asking := fun i q hq => .inl (h.noneAsking hp i q (hpods ▸ hq))
  phase := hphase

theorem Admitted.congr (h : s.Admitted n) (hpods : s'.pods = s.pods) (hphase : s'.phase = s.phase) :
    s'.Admitted n where
  calm := by rw [hpods, hphase]; exact h.calm
  pods := by rw [hpods]; exact h.pods
  asking := by rw [hpods, hphase]; exact h.asking
  phase := by rw [hpods, hphase]; exact h.phase

theorem forall_pods_set {P : PodTask → Prop} (hp : P p) (h : ∀ q ∈ s.pods, P q) :
    ∀ q ∈ s.pods.set idx p, P q := by
  intro q hq
  obtain hq | rfl := List.mem_or_eq_of_mem_set hq
  · exact h q hq
  · exact hp

theorem Admitted.not_serving_of_closed (h : s.Admitted n) (get : s.pods[idx]? = some p)
    (rx : p.rxOpen = false) : s.phase.serving = false := by
  by_contra hs
  simp [(h.calm (by simpa using hs) p (List.mem_of_getElem? get)).rxOpen] at rx

theorem failed_phase_of_not_serving (h : s.phase.serving = false) :
    s.failed.phase.serving = false ∧ PhaseAdmitted n s.failed.pods s.failed.phase ∧
      ∀ task idx, s.phase ≠ .awaitingVacancy task idx := by
  unfold failed
  split <;> simp_all [ServerlessPhase.serving, PhaseAdmitted]

theorem Admitted.sent (h : s.Admitted n) (hl : s.Labelled) {trigger : PodTrigger}
    {next : ServerlessPhase} (hsends : s.phase.sends = some (idx, trigger, next))
    (get : s.pods[idx]? = some p) :
    (next.serving = true → s.phase.serving = true ∧ trigger ≠ .halt) ∧
    (∀ task, trigger = .createWorker task → p.tasks.length < n) ∧
    (trigger = .checkVacancies → ∃ task, next = .awaitingVacancy task idx) ∧
    (∀ task i, s.phase ≠ .awaitingVacancy task i) := by
  have hphase := h.phase
  have hlabel := hl.phase
  cases hs : s.phase <;> rw [hs] at hsends hphase hlabel <;> cases hsends
  case finding => simp [ServerlessPhase.serving]
  case placing => simp [ServerlessPhase.serving, hphase p get]
  case halting => simp [ServerlessPhase.serving]
  case forwarding =>
    obtain ⟨wrk, r, rfl, -⟩ := hlabel
    simp [ServerlessPhase.serving]

theorem PhaseAdmitted.sent {pods : List PodTask} {phase next : ServerlessPhase} {trigger : PodTrigger}
    (h : PhaseAdmitted n pods phase) (hsends : phase.sends = some (idx, trigger, next)) :
    PhaseAdmitted n pods next := by
  cases phase <;> cases hsends
  case finding => exact h
  case placing | forwarding | halting => trivial

theorem PhaseAdmitted.set {phase : ServerlessPhase} (h : PhaseAdmitted n s.pods phase)
    (get : s.pods[idx]? = some p)
    (hlen : p'.tasks.length = p.tasks.length ∨
      p.tasks.length < n ∧ ∀ task, phase ≠ .placing task idx) :
    PhaseAdmitted n (s.pods.set idx p') phase := by
  cases phase with
  | finding task i | awaitingVacancy task i =>
    intro j q hj hq
    obtain ⟨rfl, rfl⟩ | ⟨-, hq⟩ := List.getElem?_set_cases hq
    · have hfull := h j p hj get
      omega
    · exact h j q hj hq
  | placing task i =>
    intro q hq
    obtain ⟨rfl, rfl⟩ | ⟨-, hq⟩ := List.getElem?_set_cases hq
    · obtain hlen | ⟨-, hne⟩ := hlen
      · exact hlen ▸ h p get
      · exact absurd rfl (hne task)
    · exact h q hq
  | selecting | awaitingWorker | forwarding | halting | awaitingHalt | joining | closed => trivial

theorem Admitted.set (h : s.Admitted n) (hl : s.Labelled) (hp : s.Placed) {b : PodAct}
    (get : s.pods[idx]? = some p) (closed : b = .hangup → s.phase = .closed)
    (hs : PodTask.Step p b p' o) :
    (s.phase.serving = true → ∀ q ∈ s.pods.set idx p', q.Calm) ∧
      (∀ q ∈ s.pods.set idx p', q.Bounded n) ∧ PhaseAdmitted n (s.pods.set idx p') s.phase := by
  have hm := List.mem_of_getElem? get
  have hslots := (hl.pods idx p get).slots
  have hcreating := hp.creating idx p get
  refine ⟨fun hserving => ?_, ?_, ?_⟩
  · refine forall_pods_set ((h.calm hserving p hm).step hs fun hb => ?_) (h.calm hserving)
    simp [closed hb, ServerlessPhase.serving] at hserving
  · refine forall_pods_set ((h.pods p hm).step hslots ?_ hs) h.pods
    obtain hc | ⟨call, hc, -⟩ := hcreating <;> simp [hc]
  · refine h.phase.set get ((PodTask.tasks_length_of_step hs).imp_right fun hnew => ?_)
    obtain ⟨call, -, hawait⟩ := hcreating.resolve_left hnew.1
    exact ⟨(h.pods p hm).creating hnew.1, by simp [hawait]⟩

theorem deliver_phase {reply : Option PodReply} (hr : ∀ v, reply ≠ some (.vacancy v)) :
    (s.deliver reply).phase = s.phase ∨
      (∀ pods, PhaseAdmitted n pods (s.deliver reply).phase) ∧
        ∀ task i, s.phase ≠ .awaitingVacancy task i := by
  unfold deliver
  split <;> simp_all [PhaseAdmitted]

theorem Admitted.deliver_vacancy (h : s.Admitted n) (hl : s.Labelled) {b : PodAct} {v : Bool}
    {task : WorkerTask} (get : s.pods[idx]? = some p) (hs : PodTask.Step p b p' o)
    (hr : o.reply = some (.vacancy v)) (hphase : s.phase = .awaitingVacancy task idx)
    (hset : PhaseAdmitted n (s.pods.set idx p') s.phase) :
    PhaseAdmitted n (s.pods.set idx p')
      (if v then .placing task idx else .finding task (idx + 1)) := by
  obtain ⟨rfl, -, htasks⟩ := PodTask.vacancy_of_step hs hr
  have hm := List.mem_of_getElem? get
  have hb := h.pods p hm
  have hv := (h.calm (by simp [hphase, ServerlessPhase.serving]) p hm).hasVacancy_iff
    (hl.pods idx p get).slots hb
  rw [hphase] at hset
  split
  · rename_i hvacancy
    intro q hq
    obtain ⟨-, rfl⟩ | ⟨hne, -⟩ := List.getElem?_set_cases hq
    · exact htasks ▸ hv.mp hvacancy
    · exact absurd rfl hne
  · rename_i hfull
    intro j q hj hq
    obtain hj | rfl := Nat.lt_succ_iff_lt_or_eq.mp hj
    · exact hset j q hj hq
    · obtain ⟨-, rfl⟩ | ⟨hne, -⟩ := List.getElem?_set_cases hq
      · rw [htasks]
        exact Nat.le_antisymm hb.started (Nat.not_lt.mp fun hlt => hfull (hv.mpr hlt))
      · exact absurd rfl hne

theorem deliver_phase_of_vacancy {task : WorkerTask} {v : Bool}
    (hp : s.phase = .awaitingVacancy task idx) :
    (s.deliver (some (.vacancy v))).phase =
      if v then .placing task idx else .finding task (idx + 1) := by
  cases v <;> simp [deliver, hp]

theorem Admitted.asking_set (h : s.Admitted n) (get : s.pods[idx]? = some p)
    (hle : p'.asking ≤ p.asking) {i : Nat} {q : PodTask} (hq : (s.pods.set idx p')[i]? = some q) :
    q.asking = 0 ∨ q.asking = 1 ∧ ∃ task, s.phase = .awaitingVacancy task i := by
  obtain ⟨rfl, rfl⟩ | ⟨-, hq⟩ := List.getElem?_set_cases hq
  · obtain h0 | ⟨h1, htask⟩ := h.asking _ _ get
    · exact .inl (by omega)
    · obtain hq | hq : q.asking = 0 ∨ q.asking = 1 := by omega
      · exact .inl hq
      · exact .inr ⟨hq, htask⟩
  · exact h.asking i q hq

theorem Admitted.pod (h : s.Admitted n) (hl : s.Labelled) (hp : s.Placed) {b : PodAct}
    (get : s.pods[idx]? = some p) (closed : b = .hangup → s.phase = .closed)
    (hs : PodTask.Step p b p' o) : ((s.setPod idx p').emit idx o).Admitted n := by
  obtain ⟨hcalm, hbounded, hphase⟩ := h.set hl hp get closed hs
  have hcalm : ((s.setPod idx p').emit idx o).phase.serving = true →
      ∀ q ∈ ((s.setPod idx p').emit idx o).pods, q.Calm := by
    rw [emit_pods, emit_eq, serving_deliver]
    exact hcalm
  have hasking : ∀ {i : Nat} {q : PodTask}, (s.pods.set idx p')[i]? = some q →
      q.asking = 0 ∨ q.asking = 1 ∧ ∃ task, s.phase = .awaitingVacancy task i :=
    h.asking_set get (PodTask.asking_of_step hs)
  by_cases hr : ∃ v, o.reply = some (.vacancy v)
  · obtain ⟨v, hr⟩ := hr
    obtain ⟨-, hcount, -⟩ := PodTask.vacancy_of_step hs hr
    obtain ⟨hone, task, htask⟩ := (h.asking idx p get).resolve_left (by omega)
    have hnext : ((s.setPod idx p').emit idx o).phase =
        if v then .placing task idx else .finding task (idx + 1) := by
      rw [emit_eq, hr]
      exact deliver_phase_of_vacancy (by exact htask)
    refine ⟨hcalm, by simpa using hbounded, fun i q hq => .inl ?_, ?_⟩
    · rw [emit_pods] at hq
      refine (hasking hq).resolve_right fun ⟨hq1, task', ht⟩ => ?_
      obtain ⟨-, rfl⟩ := ServerlessPhase.awaitingVacancy.inj (htask.symm.trans ht)
      obtain ⟨-, rfl⟩ | ⟨hne, -⟩ := List.getElem?_set_cases hq
      · omega
      · exact hne rfl
    · rw [hnext, emit_pods]
      exact h.deliver_vacancy hl get hs hr htask hphase
  · have hr : ∀ v, o.reply ≠ some (.vacancy v) := fun v hv => hr ⟨v, hv⟩
    obtain hsame | ⟨htrivial, hne⟩ := deliver_phase (s := (s.setPod idx p').given idx o) hr
    · have hsame : ((s.setPod idx p').emit idx o).phase = s.phase := hsame
      refine ⟨hcalm, by simpa using hbounded, fun i q hq => ?_, ?_⟩
      · rw [hsame]
        exact hasking (by simpa using hq)
      · rw [hsame, emit_pods]
        exact hphase
    · refine ⟨hcalm, by simpa using hbounded, fun i q hq => .inl ?_, htrivial _⟩
      exact (hasking (by simpa using hq)).resolve_right fun ⟨_, task, ht⟩ => hne task i ht

theorem Admitted.step (h : s.Admitted n) (hl : s.Labelled) (hp : s.Placed) (hs : Step s a s') :
    s'.Admitted n := by
  cases hs with
  | issue | enqueue | refuse | abandonSending | abandonWaiting | ret => exact h.congr rfl rfl
  | recv phase head hh =>
    refine h.move (by cases hh <;> rfl) (by simp [phase, ServerlessPhase.serving]) (by simp [phase]) ?_
    cases hh <;> simp [PhaseAdmitted, phase]
  | noVacancy phase | allHalted phase | shutdown phase | joined phase | serverExit phase =>
    exact h.move rfl (by simp [phase, ServerlessPhase.serving, close]) (by simp [phase]) trivial
  | failed needs get rx =>
    have hserving := h.not_serving_of_closed get rx
    obtain ⟨hs, hphase, hask⟩ := failed_phase_of_not_serving (n := n) hserving
    exact h.move failed_pods (by simp [hs]) hask hphase
  | @sent idx trigger next pod sends get rx room =>
    obtain ⟨hnext, hcreate, hcheck, hask⟩ := h.sent hl sends get
    have hm := List.mem_of_getElem? get
    refine ⟨fun hs => ?_, ?_, fun i q hq => ?_, ?_⟩
    · obtain ⟨hserving, hne⟩ := hnext hs
      exact forall_pods_set ((h.calm hserving pod hm).push hne) (h.calm hserving)
    · exact forall_pods_set ((h.pods pod hm).push hcreate) h.pods
    · obtain ⟨rfl, rfl⟩ | ⟨-, hq⟩ := List.getElem?_set_cases hq
      · exact PodTask.asking_push (h.noneAsking hask _ _ get) |>.imp_right fun hone =>
          ⟨hone.1, hcheck hone.2⟩
      · exact .inl (h.noneAsking hask i q hq)
    · exact (h.phase.sent sends).set get (.inl rfl)
  | pod get closed hstep => exact h.pod hl hp get closed hstep

theorem admitted_run (h : (machine c).Run as s) :
    s.Labelled ∧ s.Placed ∧ s.Admitted c.nWorkers :=
  run_invariant (P := fun s => s.Labelled ∧ s.Placed ∧ s.Admitted c.nWorkers)
    ⟨labelled_start c, placed_start c, admitted_start c⟩
    (fun ⟨hl, hp, ha⟩ hs => ⟨hl.step hs, hp.step hl hs, ha.step hl hp hs⟩) h

theorem Admitted.refused (h : s.Admitted n) {call : Nat} (hs : s.step .send = some s')
    (hr : s'.replies = s.replies ++ [(call, .created none)]) :
    s.phase.serving = true ∧ ∀ p ∈ s.pods, p.tasks.length = n := by
  have hne : s.replies ≠ s.replies ++ [(call, .created none)] := by simp
  have hdrop : ∀ replies : List Nat, (replies.map fun r => (r, Answer.dropped)) ≠
      [(call, .created none)] := by
    intro replies heq
    have hm := heq ▸ List.mem_singleton_self (call, Answer.created none)
    simp at hm
  cases step_sound hs with
  | sent => exact absurd hr hne
  | allHalted => exact absurd hr hne
  | joined => exact absurd (List.append_cancel_left hr) (hdrop _)
  | failed needs get rx =>
    have hserving := h.not_serving_of_closed get rx
    unfold failed at hr
    split at hr
    all_goals first
      | exact absurd hr hne
      | rename_i hp; simp [hp, ServerlessPhase.serving] at hserving
  | noVacancy phase last =>
    have hphase := h.phase
    rw [phase] at hphase
    refine ⟨by simp [phase, ServerlessPhase.serving], fun p hp => ?_⟩
    obtain ⟨j, hj, rfl⟩ := List.mem_iff_getElem.mp hp
    exact hphase j _ (by omega) (List.getElem?_eq_getElem hj)

theorem recovers_iff_keepsFull (h : (machine c).Run as s) :
    s.Recovers c.nWorkers ↔ s.KeepsFull c.nWorkers := by
  obtain ⟨hl, -, ha⟩ := admitted_run h
  have hslots : ∀ p ∈ s.pods, p.Slots := by
    intro p hp
    obtain ⟨idx, hget⟩ := List.mem_iff_getElem?.mp hp
    exact (hl.pods idx p hget).slots
  have hiff : (∀ p ∈ s.pods, p.running < c.nWorkers → p.pod.hasVacancy = true) ↔
      s.KeepsFull c.nWorkers :=
    forall₂_congr fun p hp => (ha.pods p hp).recovers_iff (hslots p hp)
  refine ⟨fun hr => hiff.mp hr.vacancy, fun hk => ⟨hiff.mpr hk, fun call s' hs hr p hp => ?_⟩⟩
  obtain ⟨hserving, hfull⟩ := ha.refused hs hr
  have hvacancy := (ha.calm hserving p hp).hasVacancy_iff (hslots p hp) (ha.pods p hp)
  refine Nat.le_antisymm (ha.pods p hp).running_le (Nat.not_lt.mp fun hlt => ?_)
  have hroom := hvacancy.mp (hiff.mpr hk p hp hlt)
  rw [hfull p hp] at hroom
  exact Nat.lt_irrefl _ hroom

theorem always_recovers_iff (c : Config) (as : List RuntimeAct) :
    (machine c).Always (Recovers c.nWorkers) as ↔ (machine c).Always (KeepsFull c.nWorkers) as :=
  forall₂_congr fun _ _ => forall₂_congr fun _ hr => recovers_iff_keepsFull hr

def failedWorker : List RuntimeAct :=
  [.issue 0 (.createWorker "a"), .enqueue 0, .recv {}, .send, .pod 0 .recv, .send, .pod 0 .recv,
    .ret 0, .pod 0 (.worker 0 (.init { compiled := some .object })), .pod 0 (.worker 0 .close),
    .issue 0 (.createWorker "a"), .enqueue 1, .recv {}, .send, .pod 0 .recv]

theorem ended_slot_lost :
    ∃ s s' p, (machine oneWorker).Run failedWorker s ∧ s.pods = [p] ∧ p.running = 0 ∧
      p.pod.hasVacancy = false ∧ s.step .send = some s' ∧
      s'.replies = s.replies ++ [(1, .created none)] ∧
      ¬ (machine oneWorker).Always (Recovers oneWorker.nWorkers) failedWorker := by
  obtain ⟨s, s', p, hrun, hp, hn, hv, hs, hr⟩ : ∃ s s' p,
      (machine oneWorker).Run failedWorker s ∧ s.pods = [p] ∧ p.running = 0 ∧
        p.pod.hasVacancy = false ∧ s.step .send = some s' ∧
        s'.replies = s.replies ++ [(1, .created none)] :=
    ⟨_, _, _, rfl, rfl, by decide, by decide, rfl, rfl⟩
  refine ⟨s, s', p, hrun, hp, hn, hv, hs, hr, fun h => ?_⟩
  have hrec := (h failedWorker s (List.prefix_refl _) hrun).vacancy p (by simp [hp])
  simp [hn, hv, oneWorker] at hrec

end Runtime

end Serverlessd
