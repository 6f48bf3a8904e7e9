import Serverlessd.Runtime.Serverless.Capacity

namespace Serverlessd

namespace ServerlessPhase

def asked : ServerlessPhase → PodTrigger → Bool
  | awaitingVacancy _ _, .checkVacancies => true
  | awaitingWorker _ _, .createWorker _ => true
  | awaitingHalt _, .halt => true
  | _, _ => false

def hears : ServerlessPhase → Option PodReply → Bool
  | awaitingVacancy _ _, some (.vacancy _) => true
  | awaitingWorker _ _, some (.worker _) => true
  | awaitingHalt _, some .halted => true
  | _, _ => false

def chosen : ServerlessPhase → Option Nat
  | placing _ idx | awaitingVacancy _ idx | awaitingWorker _ idx | awaitingHalt idx => some idx
  | forwarding id _ => some id
  | _ => none

theorem chosen_of_awaits {phase : ServerlessPhase} {idx : Nat} (h : phase.awaits = some idx) :
    phase.chosen = some idx := by
  cases phase <;> first | exact h | cases h

theorem sent_asks {phase next : ServerlessPhase} {idx : Nat} {trigger : PodTrigger}
    (h : phase.sends = some (idx, trigger, next)) :
    next.chosen = none ∨ next.chosen = some idx ∧ next.asked trigger = true := by
  cases phase <;> cases h <;> first | exact .inr ⟨rfl, rfl⟩ | exact .inl rfl

end ServerlessPhase

namespace PodTask

variable {p p' : PodTask} {a : PodAct} {o : PodOut} {waiting : ServerlessPhase}

def halts (p : PodTask) : Bool :=
  match p.phase with
  | .halting _ | .haltWaiting _ _ => true
  | _ => false

/-- The awaited reply is that to a message in the queue, or to the `Halt` in progress. -/
def Owes (p : PodTask) (waiting : ServerlessPhase) : Prop :=
  (∃ trigger ∈ p.queue, waiting.asked trigger = true) ∨
    p.halts = true ∧ waiting.asked .halt = true

theorem Owes.busy (h : p.Owes waiting) : p.queue ≠ [] ∨ p.phase ≠ .receiving := by
  obtain ⟨t, ht, -⟩ | ⟨hh, -⟩ := h
  · exact .inl (List.ne_nil_of_mem ht)
  · refine .inr fun hp => ?_
    simp [halts, hp] at hh

theorem Owes.step_queue {trigger : PodTrigger} (ht : trigger ∈ p.queue)
    (h : waiting.asked trigger = true) (hs : Step p a p' o) (hr : p'.rxOpen = true) :
    p'.Owes waiting ∨ waiting.hears o.reply = true := by
  have hkeep : trigger ∈ p'.queue → p'.Owes waiting := fun hm => .inl ⟨trigger, hm, h⟩
  cases hs with
  | checkVacancies phase head | createWorker phase head =>
    obtain rfl | hm := List.mem_cons.mp (head ▸ ht)
    · exact .inr (by cases waiting <;> first | rfl | cases h)
    · exact .inl (hkeep hm)
  | forward phase head | unknown phase head =>
    obtain rfl | hm := List.mem_cons.mp (head ▸ ht)
    · cases waiting <;> cases h
    · exact .inl (hkeep hm)
  | halt phase head =>
    obtain rfl | hm := List.mem_cons.mp (head ▸ ht)
    · exact .inl (.inr ⟨rfl, h⟩)
    · exact .inl (hkeep hm)
  | forwarded phase hf => cases hf <;> exact .inl (hkeep ht)
  | haltWorker phase hf => cases hf <;> exact .inl (hkeep ht)
  | haltEmpty | token | worker => exact .inl (hkeep ht)
  | halted | hangup => cases hr

theorem halts_of_step (h : p.halts = true) (hs : Step p a p' o) (hr : p'.rxOpen = true) :
    p'.halts = true := by
  cases hs with
  | checkVacancies phase | createWorker phase | forward phase | unknown phase | halt phase
  | forwarded phase | hangup phase => simp [halts, phase] at h
  | haltWorker phase hf => cases hf <;> rfl
  | haltEmpty | token => rfl
  | halted => cases hr
  | worker => exact h

theorem Owes.step (h : p.Owes waiting) (hs : Step p a p' o) (hr : p'.rxOpen = true) :
    p'.Owes waiting ∨ waiting.hears o.reply = true := by
  obtain ⟨t, ht, hasked⟩ | ⟨hh, hasked⟩ := h
  · exact Owes.step_queue ht hasked hs hr
  · exact .inl (.inr ⟨halts_of_step hh hs hr, hasked⟩)

theorem halted_of_step (hs : Step p a p' o) (hr : o.reply = some .halted) :
    p.halts = true ∧ p'.rxOpen = false := by
  cases replied_of_step hs hr with
  | halted phase => exact ⟨by simp [halts, phase], rfl⟩

theorem Calm.not_halts (h : p.Calm) : p.halts = false := by
  obtain hp | ⟨worker, trigger, hp⟩ := h.phase <;> simp [halts, hp]

theorem rxOpen_of_halts (h : p.halts = true) : p.rxOpen = true := by
  refine rxOpen_of_phase fun hp => ?_
  simp [halts, hp] at h

end PodTask

namespace Runtime

variable {s s' : Runtime} {a : RuntimeAct} {idx n : Nat} {p p' : PodTask} {o : PodOut}
variable {c : Config} {as : List RuntimeAct}

def PhaseHalted (pods : List PodTask) : ServerlessPhase → Prop
  | .halting i => ∀ (j : Nat) (p : PodTask), pods[j]? = some p →
    (j < i → p.rxOpen = false) ∧ (i ≤ j → p.Calm)
  | .awaitingHalt i => ∀ (j : Nat) (p : PodTask), pods[j]? = some p →
    (j < i → p.rxOpen = false) ∧ (i < j → p.Calm)
  | .joining => ∀ p ∈ pods, p.rxOpen = false
  | _ => True

structure Owed (s : Runtime) : Prop where
  chosen : ∀ idx, s.phase.chosen = some idx → idx < s.pods.length
  owes : ∀ idx p, s.phase.awaits = some idx → s.pods[idx]? = some p → p.rxOpen = true →
    p.Owes s.phase
  halted : PhaseHalted s.pods s.phase

theorem owed_start (c : Config) : (start c).Owed :=
  ⟨by nofun, by nofun, trivial⟩

theorem Owed.congr (h : s.Owed) (hpods : s'.pods = s.pods) (hphase : s'.phase = s.phase) : s'.Owed :=
  ⟨by rw [hpods, hphase]; exact h.chosen, by rw [hpods, hphase]; exact h.owes,
    by rw [hpods, hphase]; exact h.halted⟩

theorem owed_of_none (hc : s.phase.chosen = none) (hh : PhaseHalted s.pods s.phase) : s.Owed where
  chosen := by simp [hc]
  owes := by
    intro idx p ha
    simp [ServerlessPhase.chosen_of_awaits ha] at hc
  halted := hh

theorem Owed.failed (h : s.Owed)
    (needs : s.phase.sends.map Prod.fst = some idx ∨ s.phase.awaits = some idx)
    (get : s.pods[idx]? = some p) (rx : p.rxOpen = false) : s.failed.Owed := by
  have hhalted := h.halted
  cases hp : s.phase with
  | finding | awaitingVacancy | placing | awaitingWorker | forwarding =>
    exact owed_of_none (by simp [Runtime.failed, hp, ServerlessPhase.chosen])
      (by simp [Runtime.failed, hp, PhaseHalted])
  | halting i | awaitingHalt i =>
    rw [hp] at hhalted
    obtain rfl : i = idx := by simpa [hp, ServerlessPhase.sends, ServerlessPhase.awaits] using needs
    refine owed_of_none (by simp [Runtime.failed, hp, ServerlessPhase.chosen]) ?_
    simp only [Runtime.failed, hp, PhaseHalted]
    intro j q hq
    obtain ⟨hended, hcalm⟩ := hhalted j q hq
    refine ⟨fun hj => ?_, fun hj => hcalm (by omega)⟩
    obtain hj | rfl := Nat.lt_succ_iff_lt_or_eq.mp hj
    · exact hended hj
    · exact Option.some.inj (hq.symm.trans get) ▸ rx
  | selecting | joining | closed =>
    simp [hp, ServerlessPhase.sends, ServerlessPhase.awaits] at needs

theorem PhaseHalted.sent {phase next : ServerlessPhase} {trigger : PodTrigger}
    (h : PhaseHalted s.pods phase) (hsends : phase.sends = some (idx, trigger, next)) :
    PhaseHalted (s.pods.set idx p) next := by
  cases phase <;> cases hsends
  case halting =>
    intro j q hq
    obtain ⟨rfl, -⟩ | ⟨hne, hq⟩ := List.getElem?_set_cases hq
    · exact ⟨fun hj => absurd hj (Nat.lt_irrefl _), fun hj => absurd hj (Nat.lt_irrefl _)⟩
    · exact ⟨(h j q hq).1, fun hj => (h j q hq).2 (Nat.le_of_lt hj)⟩
  case finding | placing | forwarding => trivial

theorem PhaseHalted.set {b : PodAct} (h : PhaseHalted s.pods s.phase) (get : s.pods[idx]? = some p)
    (closed : b = .hangup → s.phase = .closed) (hs : PodTask.Step p b p' o) :
    PhaseHalted (s.pods.set idx p') s.phase := by
  have hended : p.rxOpen = false → p'.rxOpen = false := fun hr =>
    Bool.eq_false_iff.mpr fun hr' => by simp [PodTask.rxOpen_of_step hs hr'] at hr
  cases hp : s.phase with
  | halting i | awaitingHalt i =>
    rw [hp] at h
    intro j q hq
    obtain ⟨rfl, rfl⟩ | ⟨-, hq⟩ := List.getElem?_set_cases hq
    · obtain ⟨hbefore, hafter⟩ := h j p get
      exact ⟨fun hj => hended (hbefore hj), fun hj =>
        (hafter hj).step hs fun hb => by simp [closed hb] at hp⟩
    · exact h j q hq
  | joining =>
    rw [hp] at h
    exact forall_pods_set (hended (h p (List.mem_of_getElem? get))) h
  | _ => trivial

theorem deliver_of_not_hears {reply : Option PodReply} (h : s.phase.hears reply = false) :
    s.deliver reply = s := by
  unfold deliver
  split <;> simp_all [ServerlessPhase.hears]

theorem Owed.hears (h : s.Owed) {b : PodAct} (get : s.pods[idx]? = some p)
    (hs : PodTask.Step p b p' o) (hset : PhaseHalted (s.pods.set idx p') s.phase)
    (hh : s.phase.hears o.reply = true) : ((s.setPod idx p').emit idx o).Owed := by
  cases hp : s.phase with
  | awaitingVacancy task i =>
    obtain ⟨v, hr⟩ : ∃ v, o.reply = some (.vacancy v) := by
      unfold ServerlessPhase.hears at hh
      split at hh <;> simp_all
    have hlt := h.chosen i (by simp [hp, ServerlessPhase.chosen])
    cases v with
    | false =>
      have hnext : ((s.setPod idx p').emit idx o).phase = .finding task (i + 1) := by
        simp [emit_eq, given, deliver, hp, hr]
      exact owed_of_none (by simp [hnext, ServerlessPhase.chosen]) (by rw [hnext]; trivial)
    | true =>
      have hnext : ((s.setPod idx p').emit idx o).phase = .placing task i := by
        simp [emit_eq, given, deliver, hp, hr]
      refine ⟨fun j hj => ?_, by simp [hnext, ServerlessPhase.awaits], by rw [hnext]; trivial⟩
      obtain rfl : i = j := by simpa [hnext, ServerlessPhase.chosen] using hj
      simpa using hlt
  | awaitingWorker call i =>
    obtain ⟨id, hr⟩ : ∃ id, o.reply = some (.worker id) := by
      unfold ServerlessPhase.hears at hh
      split at hh <;> simp_all
    have hnext : ((s.setPod idx p').emit idx o).phase = .selecting := by
      simp [emit_eq, given, deliver, hp, hr]
    exact owed_of_none (by simp [hnext, ServerlessPhase.chosen]) (by rw [hnext]; trivial)
  | awaitingHalt i =>
    have hr : o.reply = some .halted := by
      unfold ServerlessPhase.hears at hh
      split at hh <;> simp_all
    obtain ⟨hhalts, hended⟩ := PodTask.halted_of_step hs hr
    have hhalted := h.halted
    rw [hp] at hset hhalted
    obtain rfl : idx = i := by
      obtain ⟨hbefore, hafter⟩ := hhalted idx p get
      refine Nat.le_antisymm (Nat.not_lt.mp fun hlt => ?_) (Nat.not_lt.mp fun hlt => ?_)
      · simp [(hafter hlt).not_halts] at hhalts
      · simp [PodTask.rxOpen_of_halts hhalts] at hbefore
        omega
    have hnext : ((s.setPod idx p').emit idx o).phase = .halting (idx + 1) := by
      simp [emit_eq, given, deliver, hp, hr]
    refine owed_of_none (by simp [hnext, ServerlessPhase.chosen]) ?_
    rw [hnext, emit_pods]
    intro j q hq
    refine ⟨fun hj => ?_, (hset j q hq).2⟩
    obtain hj | rfl := Nat.lt_succ_iff_lt_or_eq.mp hj
    · exact (hset j q hq).1 hj
    · obtain ⟨-, rfl⟩ | ⟨hne, -⟩ := List.getElem?_set_cases hq
      · exact hended
      · exact absurd rfl hne
  | _ => simp [hp, ServerlessPhase.hears] at hh

theorem Owed.pod (h : s.Owed) {b : PodAct} (get : s.pods[idx]? = some p)
    (closed : b = .hangup → s.phase = .closed) (hs : PodTask.Step p b p' o) :
    ((s.setPod idx p').emit idx o).Owed := by
  have hset := h.halted.set get closed hs
  cases hh : s.phase.hears o.reply with
  | true => exact h.hears get hs hset hh
  | false =>
    have hsame : (s.setPod idx p').emit idx o = (s.setPod idx p').given idx o :=
      deliver_of_not_hears hh
    rw [hsame]
    refine ⟨fun i hi => by simpa [given] using h.chosen i hi, fun i q hi hq hr => ?_, hset⟩
    obtain ⟨rfl, rfl⟩ | ⟨-, hq⟩ := List.getElem?_set_cases (show (s.pods.set idx p')[i]? = some q from hq)
    · have howes := h.owes i p hi get (PodTask.rxOpen_of_step hs hr)
      exact (howes.step hs hr).resolve_right (by simp [hh])
    · exact h.owes i q hi hq hr

theorem Owed.step (h : s.Owed) (ha : s.Admitted n) (hs : Step s a s') : s'.Owed := by
  cases hs with
  | issue | enqueue | refuse | abandonSending | abandonWaiting | ret => exact h.congr rfl rfl
  | recv phase head hh =>
    cases hh with
    | unreadable | unknown | upload | remove => exact h.congr rfl rfl
    | readable => exact owed_of_none rfl trivial
    | forward pod => exact ⟨by rintro _ ⟨⟩; exact pod, by nofun, trivial⟩
  | @sent idx trigger next pod sends get rx room =>
    obtain hnone | ⟨hchosen, hasked⟩ := ServerlessPhase.sent_asks sends
    · exact owed_of_none hnone (h.halted.sent sends)
    · refine ⟨fun i hi => ?_, fun i q hi hq _ => ?_, h.halted.sent sends⟩
      · obtain rfl := Option.some.inj (hchosen.symm.trans hi)
        simpa [setPod] using (List.getElem?_eq_some_iff.mp get).1
      · obtain rfl := Option.some.inj (hchosen.symm.trans (ServerlessPhase.chosen_of_awaits hi))
        obtain ⟨-, rfl⟩ | ⟨hne, -⟩ := List.getElem?_set_cases hq
        · exact .inl ⟨trigger, by simp, hasked⟩
        · exact absurd rfl hne
  | failed needs get rx => exact h.failed needs get rx
  | noVacancy => exact owed_of_none rfl trivial
  | allHalted phase last =>
    refine owed_of_none rfl fun p hm => ?_
    have hhalted := h.halted
    rw [phase] at hhalted
    obtain ⟨j, get⟩ := List.mem_iff_getElem?.mp hm
    exact (hhalted j p get).1 ((List.getElem?_eq_some_iff.mp get).1.trans_le last)
  | joined | serverExit => exact owed_of_none rfl trivial
  | shutdown phase =>
    refine owed_of_none rfl fun j p get => ⟨fun hj => absurd hj (Nat.not_lt_zero j), fun _ => ?_⟩
    exact ha.calm (by simp [phase, ServerlessPhase.serving]) p (List.mem_of_getElem? get)
  | pod get closed hs => exact h.pod get closed hs

theorem owed_run (h : (machine c).Run as s) : s.Owed := by
  refine h.induction (P := fun _ (s : Runtime) => s.Owed) (owed_start c) ?_
  intro as s a s' hr ih hs
  exact ih.step (admitted_run hr).2.2 (machine_sound hs)

end Runtime

end Serverlessd
