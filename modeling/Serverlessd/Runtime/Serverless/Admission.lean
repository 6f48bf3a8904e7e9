import Serverlessd.Runtime.Serverless.Capacity
import Serverlessd.Runtime.Serverless.Order

namespace Serverlessd

def ServerlessPhase.searching : ServerlessPhase → Option Nat
  | finding task _ | awaitingVacancy task _ | placing task _ => some task.call
  | awaitingWorker call _ => some call
  | _ => none

theorem ServerlessPhase.searching_of_sends {phase next : ServerlessPhase} {idx : Nat}
    {trigger : PodTrigger} (h : phase.sends = some (idx, trigger, next)) :
    next.searching = phase.searching := by
  cases phase <;> cases h <;> rfl

def RuntimeAct.StaysUp (a : RuntimeAct) : Prop := a ≠ .shutdown ∧ a ≠ .serverExit

namespace Runtime

def slots (s : Runtime) : List Nat := s.pods.map fun p => p.pod.workers.length

def started (s : Runtime) : List Nat := s.pods.map fun p => p.tasks.length

variable {s s' t : Runtime} {a : RuntimeAct} {idx n call : Nat} {p p' : PodTask} {o : PodOut}
variable {c : Config} {fs : FileSystem} {as pre post : List RuntimeAct}

theorem serving_run (h : (machine c).Run as s) (up : ∀ a ∈ as, a.StaysUp) :
    s.phase.serving = true := by
  refine h.induction (P := fun as (s : Runtime) => (∀ a ∈ as, a.StaysUp) → s.phase.serving = true)
    (fun _ => rfl) ?_ up
  intro as s a s' _ ih hs up
  exact serving_of_step (machine_sound hs) (ih fun b hb => up b (by simp [hb])) (up a (by simp))

theorem serving_before (hs : Step s a s') (h : s'.phase.serving = true) :
    s.phase.serving = true := by
  cases hs with
  | issue | enqueue | refuse | abandonSending | abandonWaiting | ret => exact h
  | recv phase | noVacancy phase | shutdown phase | serverExit phase =>
    simp [phase, ServerlessPhase.serving]
  | sent sends => exact (ServerlessPhase.serving_of_sends sends).symm.trans h
  | failed =>
    unfold failed at h
    split at h <;> simp_all [ServerlessPhase.serving]
  | allHalted | joined => cases h
  | pod =>
    rw [emit_eq, serving_deliver] at h
    exact h

theorem pods_length_of_step (hs : Step s a s') : s'.pods.length = s.pods.length := by
  cases hs with
  | recv phase head hh => cases hh <;> rfl
  | sent | pod => simp [setPod]
  | failed => simp
  | _ => rfl

theorem pod_after (hs : Step s a s') (get : s.pods[idx]? = some p) :
    (∃ b p' o, PodTask.Step p b p' o ∧ s'.pods[idx]? = some p' ∧
      s' = (s.setPod idx p').emit idx o) ∨
      ∃ queue, p.queue <+: queue ∧ s'.pods[idx]? = some { p with queue } := by
  have hsame : s'.pods = s.pods → ∃ queue, p.queue <+: queue ∧ s'.pods[idx]? = some { p with queue } :=
    fun hpods => ⟨p.queue, List.prefix_rfl, hpods ▸ get⟩
  cases hs with
  | recv phase head hh => exact .inr (hsame (by cases hh <;> rfl))
  | @sent i trigger next q sends get' =>
    refine .inr ?_
    by_cases hi : i = idx
    · subst hi
      obtain rfl : q = p := Option.some.inj (get'.symm.trans get)
      exact ⟨_, List.prefix_append _ _, List.getElem?_set_self (List.getElem?_eq_some_iff.mp get).1⟩
    · exact ⟨p.queue, List.prefix_rfl, by rwa [setPod_pods, List.getElem?_set_ne hi]⟩
  | failed => exact .inr (hsame failed_pods)
  | @pod i b q q' o get' closed hstep =>
    by_cases hi : i = idx
    · subst hi
      obtain rfl : q = p := Option.some.inj (get'.symm.trans get)
      refine .inl ⟨b, q', o, hstep, ?_, rfl⟩
      rw [emit_pods]
      exact List.getElem?_set_self (List.getElem?_eq_some_iff.mp get).1
    · refine .inr ⟨p.queue, List.prefix_rfl, ?_⟩
      rw [emit_pods, setPod_pods, List.getElem?_set_ne hi]
      exact get
  | issue | enqueue | refuse | abandonSending | abandonWaiting | ret | noVacancy | allHalted
  | joined | shutdown | serverExit => exact .inr (hsame rfl)

theorem pod_before (hs : Step s a s') (get' : s'.pods[idx]? = some p') :
    ∃ p, s.pods[idx]? = some p ∧ ((∃ b o, PodTask.Step p b p' o ∧
      s' = (s.setPod idx p').emit idx o) ∨ ∃ queue, p' = { p with queue }) := by
  have hlt : idx < s.pods.length :=
    pods_length_of_step hs ▸ (List.getElem?_eq_some_iff.mp get').1
  have get := List.getElem?_eq_getElem hlt
  refine ⟨_, get, (pod_after hs get).imp ?_ ?_⟩
  · rintro ⟨b, q, o, hstep, hq, heq⟩
    obtain rfl := Option.some.inj (hq.symm.trans get')
    exact ⟨b, o, hstep, heq⟩
  · rintro ⟨queue, -, hq⟩
    exact ⟨queue, (Option.some.inj (hq.symm.trans get')).symm⟩

theorem pods_length_run (h : (machine c).Run as s) : s.pods.length = c.nThreads :=
  run_invariant (P := fun s => s.pods.length = c.nThreads) (by simp [start])
    (fun hi hs => (pods_length_of_step hs).trans hi) h

theorem calls_length_of_step (hs : Step s a s') : s.calls.length ≤ s'.calls.length := by
  cases hs with
  | issue => simp
  | enqueue | refuse | abandonSending | abandonWaiting | ret => simp [setStatus]
  | recv phase head hh => cases hh <;> exact Nat.le_refl _
  | failed | pod => simp [setPod]
  | _ => exact Nat.le_refl _

theorem started_set (get : s.pods[idx]? = some p) (hlen : p'.tasks.length = p.tasks.length) :
    (s.setPod idx p').started = s.started := by
  obtain ⟨hlt, rfl⟩ := List.getElem?_eq_some_iff.mp get
  refine List.ext_getElem (by simp [started, setPod]) fun i hi _ => ?_
  by_cases hidx : idx = i
  · subst hidx
    simp [started, setPod, hlen]
  · simp [started, setPod, List.getElem_set_ne hidx]

theorem started_emit : ((s.setPod idx p').emit idx o).started = (s.setPod idx p').started := by
  simp [started]

theorem slots_eq_started (hcalm : ∀ p ∈ s.pods, p.Calm) (hl : s.Labelled) :
    s.slots = s.started := by
  refine List.map_congr_left fun p hp => ?_
  obtain ⟨idx, get⟩ := List.mem_iff_getElem?.mp hp
  simp [(hcalm p hp).workers (hl.pods idx p get).slots]

theorem searching_deliver {reply : Option PodReply} (hr : ∀ id, reply ≠ some (.worker id)) :
    (s.deliver reply).phase.searching = s.phase.searching := by
  unfold deliver
  split <;> simp_all [ServerlessPhase.searching]

/-- With these slots, a new worker has got the next one of a pod that was not full, or no
pod had one left. -/
def Fits (n : Nat) (slots : List Nat) : Option (Nat × Nat) → Prop
  | some (idx, wrk) => slots[idx]? = some wrk ∧ wrk < n
  | none => ∀ k ∈ slots, k = n

structure Searched (n : Nat) (slots : List Nat) (call : Nat) (s : Runtime) : Prop where
  logged : ∃ e ∈ s.log, e.call = call ∧ e.source.isSome
  answered : ∀ result, (call, .created result) ∈ s.replies → Fits n slots result
  searching : s.phase.searching = some call →
    s.started = slots ∧ ∀ result, (call, .created result) ∉ s.replies
  settled : s.phase.searching = some call ∨ ∃ result, (call, .created result) ∈ s.replies

variable {slots : List Nat}

theorem not_queued_of_logged (ho : s.fifo.Ordered) {e : Processed} (he : e ∈ s.log)
    {trigger : ServerlessTrigger} : (e.call, trigger) ∉ s.queue := by
  intro hm
  have hnodup : s.order.Nodup := ho.nodup
  exact (List.nodup_append.mp hnodup).2.2 e.call (List.mem_map.mpr ⟨e, he, rfl⟩) e.call
    (List.mem_map.mpr ⟨_, hm, rfl⟩) rfl

theorem Searched.congr (h : s.Searched n slots call) (hs : Step s a s')
    (hr : ∀ result, (call, .created result) ∈ s'.replies → (call, .created result) ∈ s.replies)
    (hp : s'.phase.searching = some call ↔ s.phase.searching = some call)
    (hstarted : s'.started = s.started) : s'.Searched n slots call where
  logged := by
    obtain ⟨e, he, hrest⟩ := h.logged
    exact ⟨e, (grows_of_step hs).log e he, hrest⟩
  answered := fun result hm => h.answered result (hr result hm)
  searching := by
    intro hsearch
    obtain ⟨hslots, hnone⟩ := h.searching (hp.mp hsearch)
    exact ⟨hstarted.trans hslots, fun result hm => hnone result (hr result hm)⟩
  settled := h.settled.imp hp.mpr fun ⟨result, hm⟩ => ⟨result, (replies_of_step hs).subset hm⟩

theorem Searched.conclude (h : s.Searched n slots call) (hs : Step s a s')
    (other : Nat) (result : Option (Nat × Nat)) (hsearch : s.phase.searching = some other)
    (hfits : other = call → Fits n slots result)
    (hr : ∀ r, (call, .created r) ∈ s'.replies →
      (call, .created r) ∈ s.replies ∨ call = other ∧ r = result)
    (hnew : (other, .created result) ∈ s'.replies) (hp : s'.phase = .selecting) :
    s'.Searched n slots call where
  logged := by
    obtain ⟨e, he, hrest⟩ := h.logged
    exact ⟨e, (grows_of_step hs).log e he, hrest⟩
  answered := by
    intro r hm
    obtain hm | ⟨rfl, rfl⟩ := hr r hm
    · exact h.answered r hm
    · exact hfits rfl
  searching := by simp [hp, ServerlessPhase.searching]
  settled := by
    refine .inr ?_
    obtain hc | ⟨r, hm⟩ := h.settled
    · obtain rfl := Option.some.inj (hsearch.symm.trans hc)
      exact ⟨result, hnew⟩
    · exact ⟨r, (replies_of_step hs).subset hm⟩

theorem Searched.recv (h : s.Searched n slots call) (hl : s.Labelled) (ho : s.fifo.Ordered) {io : Io}
    {other : Nat} {trigger : ServerlessTrigger} {queue : List (Nat × ServerlessTrigger)}
    (phase : s.phase = .selecting) (head : s.queue = (other, trigger) :: queue)
    (hh : Handled { s with queue } io other trigger s') : s'.Searched n slots call := by
  have hs : Step s (.recv io) s' := .recv phase head hh
  have hm : (other, trigger) ∈ s.queue := head ▸ List.mem_cons_self
  obtain ⟨op, -, htrigger⟩ : ∃ op, s.opOf other = some op ∧ trigger = op.trigger other :=
    hl.queue _ hm
  have hne : call ≠ other := by
    rintro rfl
    obtain ⟨e, he, rfl, -⟩ := h.logged
    exact not_queued_of_logged ho he hm
  cases hh with
  | unreadable =>
    refine h.congr hs (fun r hr => (mem_answer hr).resolve_right fun ⟨hc, _⟩ => ?_) .rfl rfl
    cases op <;> cases htrigger
    exact hne hc
  | readable =>
    refine h.congr hs (fun r hr => hr) ?_ rfl
    cases op <;> cases htrigger
    simp [phase, ServerlessPhase.searching, hne.symm]
  | forward => exact h.congr hs (fun r hr => hr) (by simp [phase, ServerlessPhase.searching]) rfl
  | unknown =>
    refine h.congr hs (fun r hr => ?_) .rfl rfl
    exact (mem_drop hr).resolve_right fun ⟨_, he⟩ => by cases he
  | upload =>
    refine h.congr hs (fun r hr => ?_) .rfl rfl
    exact (mem_answer hr).resolve_right fun ⟨_, he⟩ => by cases he
  | remove => exact h.congr hs (fun r hr => hr) .rfl rfl

theorem Searched.pod (h : s.Searched n slots call) (hl : s.Labelled) (hp : s.Placed)
    (ha : s.Admitted n) {b : PodAct} (get : s.pods[idx]? = some p)
    (closed : b = .hangup → s.phase = .closed) (hs : PodTask.Step p b p' o) :
    ((s.setPod idx p').emit idx o).Searched n slots call := by
  have hstep : Step s (.pod idx b) ((s.setPod idx p').emit idx o) := .pod get closed hs
  have hgiven : ∀ r, (call, Answer.created r) ∈ s.replies ++ answers o.replies →
      (call, Answer.created r) ∈ s.replies :=
    fun r hm => (List.mem_append.mp hm).resolve_right not_created_mem_answers
  by_cases hr : ∃ id, o.reply = some (.worker id)
  · obtain ⟨id, hr⟩ := hr
    have hslots := (hl.pods idx p get).slots
    obtain ⟨w, -, hcreating⟩ := hslots.created_of_step hs hr
    obtain ⟨other, -, hphase⟩ := (hp.creating idx p get).resolve_left (by simp [hcreating])
    obtain rfl : id = p.tasks.length := hslots.id_of_step hs hr
    have hlt : p.tasks.length < n :=
      (ha.pods p (List.mem_of_getElem? get)).creating (by simp [hcreating])
    have hnext : (s.setPod idx p').emit idx o =
        ({ (s.setPod idx p').given idx o with phase := .selecting } : Runtime).answer other
          (.created (some (idx, p.tasks.length))) := by
      simp [emit_eq, hr, deliver, given, hphase]
    refine h.conclude hstep other (some (idx, p.tasks.length))
      (by simp [hphase, ServerlessPhase.searching]) ?_ (fun r hm => ?_) (by simp [hnext])
      (by simp [hnext])
    · rintro rfl
      obtain ⟨rfl, -⟩ := h.searching (by simp [hphase, ServerlessPhase.searching])
      exact ⟨by simp [started, get], hlt⟩
    · rw [hnext] at hm
      exact (mem_answer hm).imp (hgiven r) fun hnew =>
        ⟨hnew.1, Answer.created.inj hnew.2⟩
  · have hr : ∀ id, o.reply ≠ some (.worker id) := fun id hid => hr ⟨id, hid⟩
    have hsearch : ((s.setPod idx p').emit idx o).phase.searching = s.phase.searching := by
      rw [emit_eq, searching_deliver hr]
      rfl
    refine h.congr hstep (fun r hm => ?_) (by rw [hsearch]) ?_
    · obtain hm | ⟨_, id, hid, -⟩ := created_of_deliver hm
      · exact hgiven r hm
      · exact absurd hid (hr id)
    · rw [started_emit]
      exact started_set get
        ((PodTask.tasks_length_of_step hs).resolve_right fun hcreated => hcreated.2.elim hr)

theorem Searched.step (h : s.Searched n slots call) (hl : s.Labelled) (hp : s.Placed)
    (ha : s.Admitted n) (ho : s.fifo.Ordered) (hserving : s.phase.serving = true) (hs : Step s a s') :
    s'.Searched n slots call := by
  have hstep := hs
  cases hs with
  | issue | enqueue | abandonWaiting | ret => exact h.congr hstep (fun r hr => hr) .rfl rfl
  | refuse | abandonSending =>
    refine h.congr hstep (fun r hr => ?_) .rfl rfl
    exact (mem_answer hr).resolve_right fun hnew => by cases hnew.2
  | recv phase head hh => exact h.recv hl ho phase head hh
  | sent sends get =>
    refine h.congr hstep (fun r hr => hr) ?_ (started_set get rfl)
    exact iff_of_eq (congrArg (· = some call) (ServerlessPhase.searching_of_sends sends))
  | failed needs get rx => simp [ha.not_serving_of_closed get rx] at hserving
  | @noVacancy task i phase last =>
    refine h.conclude hstep task.call none (by simp [phase, ServerlessPhase.searching]) ?_
      (fun r hm => ?_) (by simp) rfl
    · rintro rfl k hk
      obtain ⟨rfl, -⟩ := h.searching (by simp [phase, ServerlessPhase.searching])
      obtain ⟨p, hmem, rfl⟩ := List.mem_map.mp hk
      obtain ⟨j, get⟩ := List.mem_iff_getElem?.mp hmem
      have hfull := ha.phase
      rw [phase] at hfull
      have hj := (List.getElem?_eq_some_iff.mp get).1
      exact hfull j p (by omega) get
    · exact (mem_answer hm).imp_right fun hnew =>
        ⟨hnew.1, Answer.created.inj hnew.2⟩
  | allHalted phase | joined phase => simp [phase, ServerlessPhase.serving] at hserving
  | shutdown phase =>
    exact h.congr hstep (fun r hr => hr) (by simp [phase, ServerlessPhase.searching]) rfl
  | serverExit phase =>
    refine h.congr hstep (fun r hr => ?_) (by simp [phase, close, ServerlessPhase.searching]) rfl
    exact (mem_drop hr).resolve_right fun hnew => by cases hnew.2
  | pod get closed hs => exact h.pod hl hp ha get closed hs

theorem searched_recv (hseq : s.Sequenced fs) (hcalm : ∀ p ∈ s.pods, p.Calm) {io : Io}
    {name : String} (head : s.queue.head? = some (call, .createWorker name call))
    (hread : (CodeStore.getWorkerCode s.fs io name).2.isSome) (hs : Step s (.recv io) s') :
    s'.Searched n s.slots call := by
  cases hs with
  | @recv _ _ other trigger queue phase heq hh =>
    obtain ⟨rfl, rfl⟩ : other = call ∧ trigger = .createWorker name call := by
      simpa [heq] using head
    cases hh with
    | unreadable source => simp [source] at hread
    | readable read =>
      have hm : (other, ServerlessTrigger.createWorker name other) ∈ s.queue :=
        heq ▸ List.mem_cons_self
      have hnone : ∀ result, (other, Answer.created result) ∉ s.replies := by
        intro result hr
        obtain ⟨-, e, he, rfl, -⟩ := hseq.answered.created _ _ hr
        exact not_queued_of_logged hseq.ordered he hm
      exact ⟨⟨_, List.mem_append_right _ List.mem_cons_self, rfl, rfl⟩,
        fun result hr => absurd hr (hnone result),
        fun _ => ⟨(slots_eq_started hcalm hseq.labelled).symm, hnone⟩, .inl rfl⟩

theorem searched_run {io : Io} (h : (machine c).Run (pre ++ .recv io :: post) s)
    (hserving : s.phase.serving = true) (hpre : (machine c).Run pre t) {name : String}
    (head : t.queue.head? = some (call, .createWorker name call))
    (hread : (CodeStore.getWorkerCode t.fs io name).2.isSome) :
    s.Searched c.nWorkers t.slots call := by
  refine h.after (P := fun s => s.phase.serving = true → s.Searched c.nWorkers t.slots call)
    (fun hr hs hserving => ?_) (fun hr ih hs hserving => ?_) hserving
  · obtain rfl := hpre.unique hr
    have hstep := machine_sound hs
    have hcalm := (admitted_run hr).2.2.calm (serving_before hstep hserving)
    exact searched_recv (sequenced_run hr) hcalm head hread hstep
  · obtain ⟨hl, hp, ha⟩ := admitted_run hr
    have hstep := machine_sound hs
    have hbefore := serving_before hstep hserving
    exact (ih hbefore).step hl hp ha (sequenced_run hr).ordered hbefore hstep

theorem created_of_logged (h : s.Sequenced fs) (hlog : ∃ e ∈ s.log, e.call = call ∧ e.source.isSome)
    {answer : Answer} (hm : (call, answer) ∈ s.replies) : ∃ result, answer = .created result := by
  obtain ⟨e, he, rfl, hsource⟩ := hlog
  obtain ⟨source, hsource⟩ := Option.isSome_iff_exists.mp hsource
  obtain ⟨name, hop, -⟩ := h.labelled.log e he source hsource
  have horder : e.call ∈ s.order := List.mem_append_left _ (List.mem_map.mpr ⟨e, he, rfl⟩)
  cases answer with
  | created result => exact ⟨result, rfl⟩
  | uploaded result =>
    obtain ⟨-, -, -, _, _, -, -, hop', -⟩ := h.answered.uploaded _ _ hm
    simp [hop] at hop'
  | removed => exact absurd hm (h.answered.removed _)
  | http body =>
    obtain ⟨_, _, hop'⟩ := h.answered.http _ _ hm
    simp [hop] at hop'
  | dropped =>
    obtain ⟨_, _, hop'⟩ | ⟨hnot, -⟩ := h.answered.dropped _ hm
    · simp [hop] at hop'
    · exact absurd horder hnot

structure Admits (c : Config) (s : Runtime) : Prop where
  pods : s.pods.length = c.nThreads
  slots : ∀ p ∈ s.pods, p.pod.workers.length ≤ c.nWorkers
  capacity : ∀ p ∈ s.pods, p.pod.capacity = c.nWorkers
  inBounds : ∀ p ∈ s.pods, ∀ handle, (p.pod.createWorker handle).isSome
  held : ∀ call idx wrk, (call, .created (some (idx, wrk))) ∈ s.replies → ∃ p worker w,
    s.pods[idx]? = some p ∧ p.pod.getWorker wrk = some worker ∧ p.tasks[worker]? = some w ∧
      w.task.call = call

theorem admits_run (h : (machine c).Run as s) (up : ∀ a ∈ as, a.StaysUp) : s.Admits c := by
  obtain ⟨hl, hp, ha⟩ := admitted_run h
  have hcalm := ha.calm (serving_run h up)
  have hslots : ∀ p ∈ s.pods, p.Slots := by
    intro p hm
    obtain ⟨idx, get⟩ := List.mem_iff_getElem?.mp hm
    exact (hl.pods idx p get).slots
  refine ⟨pods_length_run h, fun p hm => ?_, fun p hm => (ha.pods p hm).capacity,
    fun p hm handle => ?_, fun call idx wrk hr => ?_⟩
  · simpa [(hcalm p hm).workers (hslots p hm)] using (ha.pods p hm).started
  · simp [Pod.createWorker_of_no_vacancies (hslots p hm).vacancies]
  · obtain ⟨task, htask, rfl⟩ := hp.created call idx wrk hr
    obtain ⟨p, w, get, hw, rfl⟩ := taskOf_eq_some.mp htask
    refine ⟨p, wrk, w, get, ?_, hw, rfl⟩
    have hm := List.mem_of_getElem? get
    have hlt := (List.getElem?_eq_some_iff.mp hw).1
    simp [Pod.getWorker, (hcalm p hm).workers (hslots p hm), hlt]

/-- While the pods stay up, each of them has at most `nWorkers` slots, in a vector that is
not reallocated; and when the code for a `CreateWorker` was read, the search for a slot goes
on until the call gets the next one of a pod that had one left, or `None` if no pod had. -/
theorem admission (h : (machine c).Run as s) (up : ∀ a ∈ as, a.StaysUp) :
    s.Admits c ∧ ∀ pre io post t call name, as = pre ++ .recv io :: post → (machine c).Run pre t →
      t.queue.head? = some (call, .createWorker name call) →
      (CodeStore.getWorkerCode t.fs io name).2.isSome →
      (s.phase.searching = some call ∨ ∃ answer, (call, answer) ∈ s.replies) ∧
        ∀ answer, (call, answer) ∈ s.replies →
          ∃ result, answer = .created result ∧ Fits c.nWorkers t.slots result := by
  refine ⟨admits_run h up, ?_⟩
  rintro pre io post t call name rfl hpre head hread
  have hs := searched_run h (serving_run h up) hpre head hread
  refine ⟨hs.settled.imp_right fun ⟨_, hm⟩ => ⟨_, hm⟩, fun answer hm => ?_⟩
  obtain ⟨result, rfl⟩ := created_of_logged (sequenced_run h) hs.logged hm
  exact ⟨result, rfl, hs.answered result hm⟩

def firstCall : List RuntimeAct :=
  [.issue 0 (.createWorker "a"), .issue 1 (.createWorker "a"), .enqueue 0, .enqueue 1, .recv {},
    .send, .pod 0 .recv, .send, .pod 0 .recv]

def secondCall : List RuntimeAct := [.send, .pod 0 .recv, .send]

theorem admission_secondCall :
    ∃ s t, (machine oneWorker).Run (firstCall ++ .recv {} :: secondCall) s ∧ s.Admits oneWorker ∧
      (machine oneWorker).Run firstCall t ∧ t.slots = [1] ∧ (1, .created none) ∈ s.replies ∧
      ∃ result, Answer.created none = .created result ∧ Fits oneWorker.nWorkers t.slots result := by
  obtain ⟨s, hs, hm⟩ : ∃ s, (machine oneWorker).Run (firstCall ++ .recv {} :: secondCall) s ∧
      (1, .created none) ∈ s.replies := ⟨_, rfl, by decide⟩
  obtain ⟨t, ht, hslots, hhead, hread⟩ : ∃ t, (machine oneWorker).Run firstCall t ∧ t.slots = [1] ∧
      t.queue.head? = some (1, .createWorker "a" 1) ∧
      (CodeStore.getWorkerCode t.fs {} "a").2.isSome := ⟨_, rfl, rfl, rfl, by decide +kernel⟩
  obtain ⟨hadmits, hanswer⟩ := admission hs (by simp [firstCall, secondCall, RuntimeAct.StaysUp])
  exact ⟨s, t, hs, hadmits, ht, hslots, hm, (hanswer _ _ _ t 1 "a" rfl ht hhead hread).2 _ hm⟩

end Runtime

end Serverlessd
