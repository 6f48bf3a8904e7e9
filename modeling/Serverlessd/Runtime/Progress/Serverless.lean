import Serverlessd.Runtime.Progress.Pods

namespace Serverlessd

namespace RuntimeAct

def ofTask : RuntimeAct → Prop
  | .recv _ | .send => True
  | _ => False

def worksAt (idx : Nat) : RuntimeAct → Prop
  | .pod i a => i = idx ∧ LocalAct.works (.pod a)
  | _ => False

def forPod (idx : Nat) (s : Runtime) : RuntimeAct → Option LocalAct
  | .pod i a => if i = idx then some (.pod a) else none
  | .send =>
    match s.phase.sends with
    | some (i, trigger, _) =>
      if i = idx ∧ (s.pods[i]?).any PodTask.rxOpen then some (.send trigger) else none
    | none => none
  | _ => none

end RuntimeAct

namespace Runtime

variable {c : Config} {s s' : Runtime} {a : RuntimeAct} {idx : Nat} {p p' : PodTask}

section Part

theorem pod_isPart (c : Config) (idx : Nat) :
    Machine.Behaviour.IsPart (machine c) (PodTask.start c.nWorkers).machine
      (fun s => (s.pods[idx]?).getD (.start c.nWorkers)) (RuntimeAct.forPod idx) where
  init := by
    simp only [machine, start, PodTask.machine, List.getElem?_replicate]
    split <;> rfl
  step := by
    intro s a s' d hs hd
    cases a with
    | pod i b =>
      simp only [RuntimeAct.forPod] at hd
      obtain ⟨rfl, heq⟩ := Option.ite_none_right_eq_some.mp hd
      cases heq
      cases get : s.pods[i]? with
      | none =>
        cases machine_sound hs with
        | pod get' => simp [get] at get'
      | some p =>
        obtain ⟨p', o, hstep, rfl⟩ := step_pod get hs
        have hlt := (List.getElem?_eq_some_iff.mp get).1
        simp [PodTask.machine, PodTask.stepOpen, hstep, hlt]
    | send =>
      simp only [RuntimeAct.forPod] at hd
      split at hd
      · rename_i i trigger next hsends
        obtain ⟨⟨rfl, hopen⟩, heq⟩ := Option.ite_none_right_eq_some.mp hd
        cases heq
        cases get : s.pods[i]? with
        | none => simp [get] at hopen
        | some p =>
          have rx : p.rxOpen = true := by simpa [get] using hopen
          have hs : s.stepSend = some s' := hs
          simp only [stepSend, hsends, get, rx, if_true] at hs
          obtain ⟨hroom, hs⟩ := Option.ite_none_right_eq_some.mp hs
          cases hs
          have hlt := (List.getElem?_eq_some_iff.mp get).1
          simp [PodTask.machine, PodTask.stepOpen, rx, hroom, hlt]
      · cases hd
    | _ => cases hd
  rest := by
    intro s a s' hs hd
    have hset : ∀ {i : Nat} {q : PodTask}, i ≠ idx → (s.pods.set i q)[idx]? = s.pods[idx]? :=
      fun hne => List.getElem?_set_ne hne
    cases machine_sound hs with
    | recv phase head hh => cases hh <;> rfl
    | @sent i trigger next p sends get rx room =>
      have hne : i ≠ idx := by
        rintro rfl
        simp [RuntimeAct.forPod, sends, get, rx] at hd
      simp [hset hne]
    | @pod i b p p' o get =>
      have hne : i ≠ idx := fun he => by simp [RuntimeAct.forPod, he] at hd
      simp [hset hne]
    | failed => simp
    | issue | enqueue | refuse | abandonSending | abandonWaiting | ret | noVacancy | allHalted
    | joined | shutdown | serverExit => rfl

end Part

/-- `serverless_task` and the tasks of its pods run on, and each worker deals with its messages
as long as it has not ended. -/
structure Fair (b : (machine c).Behaviour) : Prop where
  task : b.WeaklyFair RuntimeAct.ofTask
  pods : ∀ idx, b.WeaklyFair (RuntimeAct.worksAt idx)
  workers : ∀ n idx i w, (b.state n).workerAt idx i = some w → w.rxOpen = true → w.events ≠ [] →
    ∃ m, n ≤ m ∧ ∃ v, (b.state m).workerAt idx i = some v ∧
      (v.rxOpen = false ∨ ∃ a, b.act m = some (.pod idx (.worker i a)) ∧ v.Processes a)

theorem ofRun_fair {as : List RuntimeAct} (h : (machine c).Run as s)
    (task : ∀ a : RuntimeAct, a.ofTask → s.step a = none)
    (pods : ∀ idx (a : RuntimeAct), a.worksAt idx → s.step a = none)
    (idle : ∀ n ≤ as.length, ∀ t ∈ (machine c).exec (start c) (as.take n), ∀ p ∈ t.pods,
      ∀ w ∈ p.tasks, w.rxOpen = true → w.events = []) : Fair (Machine.Behaviour.ofRun h) where
  task := Machine.Behaviour.ofRun_weaklyFair h task
  pods idx := Machine.Behaviour.ofRun_weaklyFair h (pods idx)
  workers n idx i w hw hr he := by
    obtain ⟨p, get, hw⟩ := workerAt_eq_some.mp hw
    have hidle := Machine.Behaviour.ofRun_invariant h idle n
    exact absurd (hidle p (List.mem_of_getElem? get) w (List.mem_of_getElem? hw) hr) he

section Pods

variable {b : (machine c).Behaviour} {n m : Nat}

theorem pods_length (b : (machine c).Behaviour) (n : Nat) : (b.state n).pods.length = c.nThreads := by
  obtain ⟨as, hr⟩ := b.reachable n
  exact pods_length_run hr

theorem owed (b : (machine c).Behaviour) (n : Nat) : (b.state n).Owed := by
  obtain ⟨as, hr⟩ := b.reachable n
  exact owed_run hr

def podAt (b : (machine c).Behaviour) (idx : Nat) : (PodTask.start c.nWorkers).machine.Behaviour :=
  b.ofPart (pod_isPart c idx)

theorem podAt_state (get : (b.state n).pods[idx]? = some p) : (podAt b idx).state n = p := by
  simp [podAt, Machine.Behaviour.ofPart, get]

theorem get_podAt (hidx : idx < c.nThreads) :
    (b.state n).pods[idx]? = some ((podAt b idx).state n) := by
  have hlt : idx < (b.state n).pods.length := (pods_length b n).symm ▸ hidx
  have get := List.getElem?_eq_getElem hlt
  rw [get, podAt_state get]

theorem podAt_act {d : PodAct} :
    (podAt b idx).act n = some (.pod d) ↔ b.act n = some (.pod idx d) := by
  rw [podAt, Machine.Behaviour.ofPart_act]
  constructor
  · rintro ⟨a, hact, ha⟩
    cases a with
    | pod i e =>
      simp only [RuntimeAct.forPod] at ha
      obtain ⟨rfl, heq⟩ := Option.ite_none_right_eq_some.mp ha
      cases heq
      exact hact
    | send =>
      simp only [RuntimeAct.forPod] at ha
      repeat' split at ha
      all_goals cases ha
    | _ => cases ha
  · exact fun hact => ⟨_, hact, by simp [RuntimeAct.forPod]⟩

theorem works_isSome {d : PodAct} (hd : LocalAct.works (.pod d)) (get : s.pods[idx]? = some p)
    (hs : (p.step d).isSome) : (s.step (.pod idx d)).isSome := by
  obtain ⟨next, hs⟩ := Option.isSome_iff_exists.mp hs
  cases d with
  | hangup => exact hd.elim
  | _ => simp [step, get, hs]

theorem Fair.served (hf : Fair b) (idx : Nat) : PodTask.Served (podAt b idx) where
  task := by
    refine (hf.pods idx).ofPart (fun {s d} hd hs => ?_) fun {s a s'} ha hs => ?_
    · rcases d with trigger | d
      · exact hd.elim
      · refine ⟨.pod idx d, ⟨rfl, hd⟩, ?_⟩
        cases get : s.pods[idx]? with
        | none =>
          rw [get] at hs
          cases d with
          | hangup | worker => exact hd.elim
          | recv | send | token => cases hs
        | some p => exact works_isSome hd get (by simpa [get, PodTask.machine, PodTask.stepOpen] using hs)
    · cases a with
      | pod i d =>
        obtain ⟨rfl, hd⟩ := ha
        exact ⟨.pod d, hd, by simp [RuntimeAct.forPod]⟩
      | _ => exact ha.elim
  worker := by
    intro n i w hw hr he
    by_cases hidx : idx < c.nThreads
    · have hat : (b.state n).workerAt idx i = some w :=
        workerAt_eq_some.mpr ⟨_, get_podAt hidx, hw⟩
      obtain ⟨m, hm, v, hv, hdone⟩ := hf.workers n idx i w hat hr he
      obtain ⟨p, get, hv⟩ := workerAt_eq_some.mp hv
      refine ⟨m, hm, v, by rwa [podAt_state get], hdone.imp_right ?_⟩
      rintro ⟨a, hact, ha⟩
      exact ⟨a, podAt_act.mpr hact, ha⟩
    · have hnone : (b.state n).pods[idx]? = none :=
        List.getElem?_eq_none ((pods_length b n).symm ▸ Nat.not_lt.mp hidx)
      simp [podAt, Machine.Behaviour.ofPart, hnone, PodTask.start] at hw

end Pods

section Phases

def rank (n : Nat) : ServerlessPhase → Nat
  | .selecting | .closed => 0
  | .forwarding _ _ | .joining => 1
  | .finding _ i => 4 * (n - i) + 1
  | .awaitingVacancy _ i => 4 * (n - i)
  | .placing _ i => 4 * (n - i) - 1
  | .awaitingWorker _ i => 4 * (n - i) - 2
  | .halting i => 2 * (n - i) + 2
  | .awaitingHalt i => 2 * (n - i) + 1

theorem rank_of_deliver (hc : ∀ i, s.phase.chosen = some i → i < s.pods.length)
    (reply : Option PodReply) : (s.deliver reply).phase = s.phase ∨
      rank s.pods.length (s.deliver reply).phase < rank s.pods.length s.phase := by
  unfold deliver
  split
  · rename_i task i hp
    have hlt := hc i (by simp [hp, ServerlessPhase.chosen])
    simp only [hp, rank]
    omega
  · rename_i task i hp
    have hlt := hc i (by simp [hp, ServerlessPhase.chosen])
    simp only [hp, rank]
    omega
  · rename_i call i id hp
    have hlt := hc i (by simp [hp, ServerlessPhase.chosen])
    simp only [hp, rank, answer_phase]
    omega
  · rename_i i hp
    have hlt := hc i (by simp [hp, ServerlessPhase.chosen])
    simp only [hp, rank]
    omega
  · exact .inl rfl

theorem rank_of_step (ho : s.Owed) (hs : Step s a s') (hp : s.phase ≠ .selecting) :
    s'.phase = s.phase ∨ rank s.pods.length s'.phase < rank s.pods.length s.phase := by
  cases hs with
  | issue | enqueue | refuse | abandonSending | abandonWaiting | ret => exact .inl rfl
  | recv phase | shutdown phase | serverExit phase => exact absurd phase hp
  | @sent idx trigger next p sends get =>
    have hlt := (List.getElem?_eq_some_iff.mp get).1
    refine .inr ?_
    cases hphase : s.phase <;> rw [hphase] at sends <;> cases sends <;>
      simp only [setPod_phase, rank] <;> omega
  | @failed idx p needs get =>
    have hlt := (List.getElem?_eq_some_iff.mp get).1
    refine .inr ?_
    cases hphase : s.phase <;>
      simp only [hphase, ServerlessPhase.sends, ServerlessPhase.awaits, Option.map_some,
        Option.map_none, Option.some.injEq, reduceCtorEq, or_false, false_or] at needs <;>
      simp only [failed, hphase, rank, answer_phase, drop_phase] <;> omega
  | noVacancy phase =>
    simp only [answer_phase, phase, rank]
    omega
  | allHalted phase =>
    simp only [phase, rank]
    omega
  | joined phase => exact .inr (by simp [close, phase, rank])
  | @pod idx b p p' o get closed hstep =>
    have hrank := rank_of_deliver (s := (s.setPod idx p').given idx o)
      (fun i hi => by simpa [given] using ho.chosen i hi) o.reply
    simpa [given, emit_eq] using hrank

theorem phase_of_send (hs : Step s .send s') : s'.phase ≠ s.phase := by
  cases hs with
  | sent sends =>
    cases hphase : s.phase <;> rw [hphase] at sends <;> cases sends <;> simp
  | failed needs =>
    cases hphase : s.phase <;>
      simp [hphase, ServerlessPhase.sends, ServerlessPhase.awaits, failed] at needs ⊢
  | noVacancy phase | allHalted phase => simp [phase]
  | joined phase => simp [close, phase]

def Needs (s : Runtime) (idx : Nat) : Prop :=
  s.phase.sends.map Prod.fst = some idx ∨ s.phase.awaits = some idx

def Free (s : Runtime) (idx : Nat) : Prop :=
  ∃ p, s.pods[idx]? = some p ∧
    (p.rxOpen = false ∨ s.phase.sends.isSome ∧ p.queue.length < podCapacity)

theorem stepSend_of_free (hn : s.Needs idx) (hf : s.Free idx) : s.stepSend.isSome := by
  obtain ⟨p, get, hf⟩ := hf
  cases hsends : s.phase.sends with
  | some send =>
    obtain ⟨i, trigger, next⟩ := send
    have hawaits : s.phase.awaits = none := by
      cases hp : s.phase <;> rw [hp] at hsends <;> first | rfl | cases hsends
    obtain rfl : i = idx := by simpa [Needs, hsends, hawaits] using hn
    cases hr : p.rxOpen with
    | false => simp [stepSend, hsends, get, hr]
    | true =>
      have hroom := (hf.resolve_left (by simp [hr])).2
      simp [stepSend, hsends, get, hr, hroom]
  | none =>
    have ha : s.phase.awaits = some idx := by simpa [Needs, hsends] using hn
    have hr := hf.resolve_right (by simp [hsends])
    simp [stepSend, hsends, ha, get, hr]

theorem Free.step (h : s.Free idx) (hs : Step s a s') (ha : a ≠ .send) (hp : s'.phase = s.phase) :
    s'.Free idx := by
  obtain ⟨p, get, hf⟩ := h
  unfold Free
  rw [hp]
  cases hs with
  | @pod i b p₁ p' o get' closed hstep =>
    simp only [emit_pods, setPod_pods]
    by_cases hi : i = idx
    · subst hi
      obtain rfl : p₁ = p := Option.some.inj (get'.symm.trans get)
      refine ⟨p', List.getElem?_set_self (List.getElem?_eq_some_iff.mp get).1, ?_⟩
      refine hf.imp (fun hr => ?_) fun ⟨hsends, hroom⟩ => ⟨hsends, ?_⟩
      · exact Bool.eq_false_iff.mpr fun hr' => by simp [PodTask.rxOpen_of_step hstep hr'] at hr
      · exact Nat.lt_of_le_of_lt (PodTask.queue_length_of_step hstep) hroom
    · exact ⟨p, by rwa [List.getElem?_set_ne hi], hf⟩
  | recv phase head hh => cases hh <;> exact ⟨p, get, hf⟩
  | sent | failed | noVacancy | allHalted | joined => exact absurd rfl ha
  | issue | enqueue | refuse | abandonSending | abandonWaiting | ret | shutdown | serverExit =>
    exact ⟨p, get, hf⟩

theorem waits_of_blocked (ho : s.Owed) (hp : s.phase ≠ .selecting) (hc : s.phase ≠ .closed)
    (h : s.stepSend = none) : ∃ idx p, s.Needs idx ∧ s.pods[idx]? = some p ∧
      (s.phase.sends.isSome ∧ p.queue ≠ [] ∨ s.phase.awaits = some idx ∧ p.Owes s.phase) := by
  have hawaits : System.Awaits ⟨s, []⟩ .serverless := by
    cases hphase : s.phase <;>
      first | exact absurd hphase hp | exact absurd hphase hc |
        simp [System.Awaits, hphase, ServerlessPhase.sends, ServerlessPhase.awaits]
  obtain ⟨a, ha, hs⟩ | ⟨u, hw⟩ := System.progress_serverless (s := ⟨s, []⟩) ho hawaits
  · cases a with
    | runtime b =>
      cases b with
      | recv io =>
        obtain ⟨t, ht⟩ := Option.isSome_iff_exists.mp hs
        obtain ⟨r, hr, -⟩ := Option.map_eq_some_iff.mp ht
        cases step_sound hr with
        | recv phase => exact absurd phase hp
      | send =>
        have hsend : (s.stepSend).isSome := by simpa [System.step, step] using hs
        simp [h] at hsend
      | pod i b =>
        cases b with
        | worker i c =>
          simp only [SystemAct.task] at ha
          repeat' split at ha
          all_goals cases ha
        | _ => cases ha
      | _ => cases ha
    | _ => cases ha
  · cases hw with
    | @podQueue idx trigger next p sends get rx full =>
      refine ⟨idx, p, .inl (by rw [sends]; rfl), get, .inl ⟨by rw [sends]; rfl, fun hq => ?_⟩⟩
      simp [hq, podCapacity] at full
    | @podReply idx p awaits get rx =>
      exact ⟨idx, p, .inr awaits, get, .inr ⟨awaits, ho.owes idx p awaits get rx⟩⟩
    | @podEnd idx p phase get rx =>
      have hended := ho.halted
      rw [phase] at hended
      simp [hended p (List.mem_of_getElem? get)] at rx

theorem phase_of_hears {reply : Option PodReply} (h : s.phase.hears reply = true) :
    (s.deliver reply).phase ≠ s.phase := by
  intro heq
  unfold deliver at heq
  split at heq
  · rename_i hp
    simp [hp] at heq
  · rename_i hp
    simp [hp] at heq
  · rename_i hp
    simp [hp] at heq
  · rename_i hp
    simp [hp] at heq
  · rename_i hnot₁ hnot₂ hnot₃ hnot₄
    unfold ServerlessPhase.hears at h
    split at h
    · rename_i task idx vacancy hp
      cases vacancy with
      | true => exact hnot₁ task idx hp rfl
      | false => exact hnot₂ task idx hp rfl
    · rename_i call idx id hp
      exact hnot₃ call idx id hp rfl
    · rename_i idx hp
      exact hnot₄ idx hp rfl
    · cases h

end Phases

section Moves

variable {b : (machine c).Behaviour} {n : Nat}

theorem free_of_closed (hidx : idx < c.nThreads) {m : Nat}
    (h : ((podAt b idx).state m).rxOpen = false) : (b.state m).Free idx :=
  ⟨_, get_podAt hidx, .inl h⟩

theorem Fair.freed (hf : Fair b) (hstays : ∀ m, n ≤ m → (b.state m).phase = (b.state n).phase)
    (get : (b.state n).pods[idx]? = some p)
    (h : (b.state n).phase.sends.isSome ∧ p.queue ≠ [] ∨
      (b.state n).phase.awaits = some idx ∧ p.Owes (b.state n).phase) :
    ∃ m, n ≤ m ∧ (b.state m).Free idx := by
  have hs := hf.served idx
  have hidx : idx < c.nThreads := pods_length b n ▸ (List.getElem?_eq_some_iff.mp get).1
  have hstate := podAt_state (b := b) get
  have hhalts : ∀ m, n ≤ m → ((podAt b idx).state m).halts = true →
      ∃ k, n ≤ k ∧ (b.state k).Free idx := by
    intro m hm hh
    obtain ⟨k, hk, hended⟩ := hs.ends hh
    exact ⟨k, Nat.le_trans hm hk, free_of_closed hidx hended⟩
  obtain ⟨hsends, hq⟩ | ⟨hawaits, ⟨trigger, hmem, hasked⟩ | ⟨hh, -⟩⟩ := h
  · obtain ⟨t, q, hq⟩ := List.exists_cons_of_ne_nil hq
    have hprefix : t :: q <+: ((podAt b idx).state n).queue :=
      ⟨[], by rw [hstate, hq, List.append_nil]⟩
    obtain ⟨m, hm, hended | ⟨hact, hr⟩⟩ := hs.receives hprefix
    · exact ⟨m, hm, free_of_closed hidx hended⟩
    · obtain ⟨o, hstep⟩ := PodTask.step_of_pod hact
      have hlt := PodTask.queue_length_of_recv (PodTask.step_sound hstep)
      refine ⟨m + 1, Nat.le_succ_of_le hm, _, get_podAt hidx, .inr ⟨?_, ?_⟩⟩
      · rwa [hstays (m + 1) (Nat.le_succ_of_le hm)]
      · exact Nat.lt_of_lt_of_le hlt (PodTask.queue_length_le _ _)
  · obtain ⟨pre, post, hq⟩ := List.append_of_mem hmem
    have hprefix : pre ++ trigger :: post <+: ((podAt b idx).state n).queue :=
      ⟨[], by rw [hstate, hq, List.append_nil]⟩
    obtain ⟨m, hm, hended | ⟨hact, hr⟩⟩ := hs.received hprefix
    · exact ⟨m, hm, free_of_closed hidx hended⟩
    · obtain ⟨o, hstep⟩ := PodTask.step_of_pod hact
      obtain hheard | hh := PodTask.heard_of_recv (PodTask.step_sound hstep) hr.head hasked
      · obtain ⟨p', o', hstep', hnext⟩ := step_pod (get_podAt hidx) (b.step m _ (podAt_act.mp hact))
        obtain ⟨-, rfl⟩ := Prod.mk.inj (Option.some.inj (hstep.symm.trans hstep'))
        have hphase := hstays m hm
        refine absurd ((hstays (m + 1) (Nat.le_succ_of_le hm)).trans hphase.symm) ?_
        rw [hnext, emit_eq]
        exact phase_of_hears (by simpa [given, hphase] using hheard)
      · exact hhalts (m + 1) (Nat.le_succ_of_le hm) hh
  · exact hhalts n (Nat.le_refl n) (hstate ▸ hh)

theorem Fair.moves (hf : Fair b) (hp : (b.state n).phase ≠ .selecting)
    (hc : (b.state n).phase ≠ .closed) :
    ∃ m, n ≤ m ∧ (b.state m).phase ≠ (b.state n).phase := by
  by_contra hno
  have hstays : ∀ m, n ≤ m → (b.state m).phase = (b.state n).phase := fun m hm => by
    by_contra hne
    exact hno ⟨m, hm, hne⟩
  have hidle : ∀ m, n ≤ m → ¬ b.Takes RuntimeAct.ofTask m := by
    rintro m hm ⟨a, ha, hact⟩
    have hs := machine_sound (b.step m a hact)
    cases a with
    | recv io => cases hs with | recv phase => exact hp ((hstays m hm).symm.trans phase)
    | send =>
      exact phase_of_send hs ((hstays (m + 1) (Nat.le_succ_of_le hm)).trans (hstays m hm).symm)
    | _ => exact ha
  have hblocked : ∀ m, n ≤ m → ∃ k, m ≤ k ∧ (b.state k).stepSend = none := by
    intro m hm
    by_contra hall
    obtain ⟨k, hk, ht⟩ := hf.task m fun k hk => by
      refine ⟨.send, trivial, Option.isSome_iff_ne_none.mpr fun hnone => hall ⟨k, hk, hnone⟩⟩
    exact hidle k (Nat.le_trans hm hk) ht
  obtain ⟨m, hm, hnone⟩ := hblocked n (Nat.le_refl n)
  have hphase := hstays m hm
  obtain ⟨idx, p, hneeds, get, hw⟩ :=
    waits_of_blocked (owed b m) (hphase ▸ hp) (hphase ▸ hc) hnone
  obtain ⟨k, hk, hfree⟩ := hf.freed (n := m)
    (fun i hi => (hstays i (Nat.le_trans hm hi)).trans hphase.symm) get hw
  have hfree : ∀ i, k ≤ i → (b.state i).Free idx := by
    intro i hi
    induction i, hi using Nat.le_induction with
    | base => exact hfree
    | succ i hi ih =>
      cases hact : b.act i with
      | none => exact b.idle i hact ▸ ih
      | some a =>
        have hni := Nat.le_trans hm (Nat.le_trans hk hi)
        have hne : a ≠ .send := fun heq => hidle i hni ⟨a, heq ▸ trivial, hact⟩
        exact ih.step (machine_sound (b.step i a hact)) hne
          ((hstays (i + 1) (Nat.le_succ_of_le hni)).trans (hstays i hni).symm)
  obtain ⟨i, hi, hnone⟩ := hblocked k (Nat.le_trans hm hk)
  have hphase_i := hstays i (Nat.le_trans hm (Nat.le_trans hk hi))
  have hneeds_i : (b.state i).Needs idx := by
    simpa only [Needs, hphase_i, hphase] using hneeds
  have hsome := stepSend_of_free hneeds_i (hfree i hi)
  simp [hnone] at hsome

theorem Fair.rests (hf : Fair b) (n : Nat) :
    ∃ m, n ≤ m ∧ ((b.state m).phase = .selecting ∨ (b.state m).phase = .closed) := by
  refine Machine.eventually_of_rank (fun m => rank c.nThreads (b.state m).phase) fun m hm => ?_
  by_cases hrest : (b.state m).phase = .selecting ∨ (b.state m).phase = .closed
  · exact ⟨m, Nat.le_refl m, .inl hrest⟩
  obtain ⟨hp, hc⟩ := not_or.mp hrest
  have hunless : b.Unless (fun s => s.phase = (b.state m).phase) fun s =>
      rank c.nThreads s.phase < rank c.nThreads (b.state m).phase := by
    intro i a hact hphase
    have hdown := rank_of_step (owed b i) (machine_sound (b.step i a hact)) (hphase ▸ hp)
    rwa [pods_length, hphase] at hdown
  obtain ⟨k, hk, hne⟩ := hf.moves hp hc
  obtain ⟨k, hk, hlt⟩ := (hunless.holds rfl hk).resolve_left hne
  exact ⟨k, hk, .inr hlt⟩

end Moves

end Runtime

end Serverlessd
