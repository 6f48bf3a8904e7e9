import Mathlib.Data.List.Nodup
import Serverlessd.Lib.Lists
import Serverlessd.Runtime.Worker.TaskLaws

namespace Serverlessd

namespace Isolate

/-- The reactions and the jobs are those of the replier links: a link whose function
is in effect waits as a reaction while its promise is pending, and only fulfilment
makes it a job. -/
structure Linked (i : Isolate) (links : List Link) : Prop where
  valid : ∀ link ∈ links, link.promise < i.promises.length
  reactions : ∀ promise ptr, (promise, ptr) ∈ i.reactions ↔
    ∃ link, links[ptr]? = some link ∧ link.promise = promise ∧ link.linked = true ∧
      i.promises[promise]? = some .pending
  jobs : ∀ ptr value, (ptr, value) ∈ i.jobs → ∃ link, links[ptr]? = some link ∧
    link.linked = true ∧ i.promises[link.promise]? = some (.fulfilled value)
  nodup_reactions : (i.reactions.map Prod.snd).Nodup
  nodup_jobs : (i.jobs.map Prod.fst).Nodup

variable {i : Isolate} {links : List Link}

theorem linked_empty : ({} : Isolate).Linked [] :=
  ⟨by simp, by simp, by simp, by simp, by simp⟩

theorem Linked.newPromise (h : i.Linked links) : i.newPromise.Linked links where
  valid := fun link hl => by
    have := h.valid link hl
    simp only [Isolate.newPromise, List.length_append]
    omega
  reactions := by
    intro promise ptr
    simp only [Isolate.newPromise, h.reactions]
    refine exists_congr fun link => and_congr_right fun hl => and_congr_right fun hp => ?_
    subst hp
    rw [List.getElem?_append_left (h.valid link (List.mem_of_getElem? hl))]
  jobs := by
    intro ptr value hj
    obtain ⟨link, hl, hlinked, hf⟩ := h.jobs ptr value hj
    exact ⟨link, hl, hlinked, (List.getElem?_append_left
      (h.valid link (List.mem_of_getElem? hl))).trans hf⟩
  nodup_reactions := h.nodup_reactions
  nodup_jobs := h.nodup_jobs

theorem Linked.reactions_set (h : i.Linked links) {promise : Nat} {state : PromiseState}
    (hs : state ≠ .pending) (q ptr : Nat) :
    (q, ptr) ∈ i.reactions.filter (·.1 ≠ promise) ↔
      ∃ link, links[ptr]? = some link ∧ link.promise = q ∧ link.linked = true ∧
        (i.promises.set promise state)[q]? = some .pending := by
  simp only [List.mem_filter, h.reactions, List.getElem?_set]
  by_cases hq : promise = q
  · subst hq
    simp [hs]
  · simp [hq, Ne.symm hq]

theorem Linked.valid_set (h : i.Linked links) (promise : Nat) (state : PromiseState) :
    ∀ link ∈ links, link.promise < (i.promises.set promise state).length := by
  simpa using h.valid

theorem Linked.jobs_set (h : i.Linked links) {promise ptr : Nat} {value : Value}
    (state : PromiseState) (hp : i.promises[promise]? = some .pending) (hj : (ptr, value) ∈ i.jobs) :
    ∃ link, links[ptr]? = some link ∧ link.promise ≠ promise ∧ link.linked = true ∧
      (i.promises.set promise state)[link.promise]? = some (.fulfilled value) := by
  obtain ⟨link, hl, hlinked, hf⟩ := h.jobs ptr value hj
  have hne : link.promise ≠ promise := by
    rintro rfl
    rw [hp] at hf
    cases hf
  exact ⟨link, hl, hne, hlinked, by rwa [List.getElem?_set_ne (Ne.symm hne)]⟩

theorem Linked.nodup_filter (h : i.Linked links) (f : Nat × Nat → Bool) :
    ((i.reactions.filter f).map Prod.snd).Nodup :=
  h.nodup_reactions.sublist (List.filter_sublist.map _)

theorem Linked.reject (h : i.Linked links) {promise : Nat}
    (hp : i.promises[promise]? = some .pending) : (i.reject promise).Linked links where
  valid := h.valid_set promise .rejected
  reactions := h.reactions_set (by simp)
  jobs := by
    intro ptr value hj
    obtain ⟨link, hl, -, hlinked, hf⟩ := h.jobs_set .rejected hp hj
    exact ⟨link, hl, hlinked, hf⟩
  nodup_reactions := h.nodup_filter _
  nodup_jobs := h.nodup_jobs

theorem mem_fulfil_jobs {promise ptr : Nat} {value v : Value} :
    (ptr, v) ∈ (i.fulfil promise value).jobs ↔
      (ptr, v) ∈ i.jobs ∨ (promise, ptr) ∈ i.reactions ∧ v = value := by
  simp only [Isolate.fulfil, List.mem_append, List.mem_map, List.mem_filter, Prod.mk.injEq,
    Prod.exists, decide_eq_true_eq]
  grind

theorem Linked.fulfil (h : i.Linked links) {promise : Nat} {value : Value}
    (hp : i.promises[promise]? = some .pending) : (i.fulfil promise value).Linked links where
  valid := h.valid_set promise (.fulfilled value)
  reactions := h.reactions_set (by simp)
  jobs := by
    intro ptr v hj
    obtain hj | ⟨hr, rfl⟩ := mem_fulfil_jobs.mp hj
    · obtain ⟨link, hl, -, hlinked, hf⟩ := h.jobs_set (.fulfilled value) hp hj
      exact ⟨link, hl, hlinked, hf⟩
    · obtain ⟨link, hl, rfl, hlinked, -⟩ := (h.reactions _ _).mp hr
      refine ⟨link, hl, hlinked, ?_⟩
      exact List.getElem?_set_self (h.valid link (List.mem_of_getElem? hl))
  nodup_reactions := h.nodup_filter _
  nodup_jobs := by
    have hnew : (((i.reactions.filter (·.1 = promise)).map fun r => (r.2, value)).map
        Prod.fst).Nodup := by
      rw [List.map_map]
      exact h.nodup_filter (·.1 = promise)
    simp only [Isolate.fulfil, List.map_append]
    refine h.nodup_jobs.append hnew ?_
    intro ptr hj hr
    obtain ⟨v, hj⟩ : ∃ v, (ptr, v) ∈ i.jobs := by simpa using hj
    have hr : (promise, ptr) ∈ i.reactions := by simpa using hr
    obtain ⟨link, hl, hne, -⟩ := h.jobs_set .rejected hp hj
    obtain ⟨link', hl', hq, -⟩ := (h.reactions _ _).mp hr
    obtain rfl : link = link' := Option.some.inj (hl.symm.trans hl')
    exact hne hq

theorem Linked.tail (h : i.Linked links) {ptr : Nat} {value : Value} {jobs : List (Nat × Value)}
    (hj : i.jobs = (ptr, value) :: jobs) : ({ i with jobs } : Isolate).Linked links where
  valid := h.valid
  reactions := h.reactions
  jobs := fun p v hv => h.jobs p v (hj ▸ List.mem_cons_of_mem _ hv)
  nodup_reactions := h.nodup_reactions
  nodup_jobs := by
    have := h.nodup_jobs
    rw [hj, List.map_cons] at this
    exact this.of_cons

theorem Linked.valid_concat (h : i.Linked links) {event promise : Nat} {linked : Bool}
    (hv : promise < i.promises.length) :
    ∀ link ∈ links ++ [⟨event, promise, linked⟩], link.promise < i.promises.length := by
  intro link hl
  obtain hl | rfl : link ∈ links ∨ link = ⟨event, promise, linked⟩ := by simpa using hl
  · exact h.valid link hl
  · exact hv

theorem Linked.reaction_lt (h : i.Linked links) {promise ptr : Nat}
    (hr : (promise, ptr) ∈ i.reactions) : ptr < links.length := by
  obtain ⟨link, hl, -⟩ := (h.reactions _ _).mp hr
  exact (List.getElem?_eq_some_iff.mp hl).1

theorem Linked.job_lt (h : i.Linked links) {ptr : Nat} (hj : ptr ∈ i.jobs.map Prod.fst) :
    ptr < links.length := by
  obtain ⟨v, hj⟩ : ∃ v, (ptr, v) ∈ i.jobs := by simpa using hj
  obtain ⟨link, hl, -⟩ := h.jobs ptr v hj
  exact (List.getElem?_eq_some_iff.mp hl).1

theorem Linked.concat (h : i.Linked links) {promise : Nat} (event : Nat) (linked : Bool)
    (hv : promise < i.promises.length)
    (hn : linked = true → i.promises[promise]? ≠ some .pending) :
    i.Linked (links ++ [⟨event, promise, linked⟩]) where
  valid := h.valid_concat hv
  reactions := by
    intro q ptr
    simp only [h.reactions, List.getElem?_concat_eq_some]
    refine exists_congr fun link => ⟨fun ⟨hl, hrest⟩ => ⟨.inl hl, hrest⟩, ?_⟩
    rintro ⟨hl | ⟨-, rfl⟩, rfl, hlinked, hpend⟩
    · exact ⟨hl, rfl, hlinked, hpend⟩
    · exact absurd hpend (hn hlinked)
  jobs := by
    intro ptr value hj
    obtain ⟨link, hl, hrest⟩ := h.jobs ptr value hj
    exact ⟨link, List.getElem?_concat_eq_some.mpr (.inl hl), hrest⟩
  nodup_reactions := h.nodup_reactions
  nodup_jobs := h.nodup_jobs

theorem chain_promises (i : Isolate) (promise ptr : Nat) :
    (i.chain promise ptr).promises = i.promises := by
  unfold chain
  split <;> rfl

theorem Linked.chain (h : i.Linked links) {event promise : Nat}
    (hv : promise < i.promises.length) :
    (i.chain promise links.length).Linked (links ++ [⟨event, promise, true⟩]) := by
  unfold Isolate.chain
  split
  · rename_i hp
    refine ⟨h.valid_concat hv, ?_, ?_, ?_, h.nodup_jobs⟩
    · intro q ptr
      simp only [List.mem_append, h.reactions, List.mem_singleton, Prod.mk.injEq,
        List.getElem?_concat_eq_some]
      constructor
      · rintro (⟨link, hl, hrest⟩ | ⟨rfl, rfl⟩)
        · exact ⟨link, .inl hl, hrest⟩
        · exact ⟨_, .inr ⟨rfl, rfl⟩, rfl, rfl, hp⟩
      · rintro ⟨link, hl | ⟨rfl, rfl⟩, rfl, hrest⟩
        · exact .inl ⟨link, hl, rfl, hrest⟩
        · exact .inr ⟨rfl, rfl⟩
    · intro ptr value hj
      obtain ⟨link, hl, hrest⟩ := h.jobs ptr value hj
      exact ⟨link, List.getElem?_concat_eq_some.mpr (.inl hl), hrest⟩
    · rw [List.map_append]
      refine h.nodup_reactions.append (by simp) ?_
      intro ptr hr hn
      obtain rfl : ptr = links.length := by simpa using hn
      obtain ⟨q, hr⟩ : ∃ q, (q, links.length) ∈ i.reactions := by simpa using hr
      exact Nat.lt_irrefl _ (h.reaction_lt hr)
  · rename_i value hp
    have hc := h.concat event true hv (by simp [hp])
    refine ⟨hc.valid, hc.reactions, ?_, hc.nodup_reactions, ?_⟩
    · intro ptr v hj
      obtain hj | ⟨rfl, rfl⟩ : (ptr, v) ∈ i.jobs ∨ ptr = links.length ∧ v = value := by
        simpa using hj
      · exact hc.jobs ptr v hj
      · exact ⟨_, List.getElem?_concat_eq_some.mpr (.inr ⟨rfl, rfl⟩), rfl, hp⟩
    · rw [List.map_append]
      refine h.nodup_jobs.append (by simp) ?_
      intro ptr hj hn
      obtain rfl : ptr = links.length := by simpa using hn
      exact Nat.lt_irrefl _ (h.job_lt hj)
  · rename_i hnot _
    exact h.concat _ _ hv fun _ hp => hnot hp

end Isolate

namespace Worker

variable {w w' : Worker} {o : WorkerOut} {a : WorkerAct} {ptr : Nat} {link : Link}

def Answered (w : Worker) (ptr : Nat) (link : Link) : Prop :=
  link.linked = true ∧ (∃ value, w.isolate.promises[link.promise]? = some (.fulfilled value)) ∧
    ptr ∉ w.isolate.jobs.map Prod.fst

/-- The replier table, the links and the isolate agree; and until the state is
dropped, a replier has lost its sender exactly when its function has run. -/
structure Linked (w : Worker) : Prop where
  wf : w.repliers.Wf
  length : w.links.length = w.repliers.boxes.length
  isolate : w.isolate.Linked w.links
  live : w.phase ≠ .closed → ∀ ptr link, w.links[ptr]? = some link →
    (w.repliers.Live ptr ↔ ¬ w.Answered ptr link)

theorem linked_init (task : WorkerTask) : (machine task).init.Linked :=
  ⟨Repliers.wf_empty, rfl, Isolate.linked_empty, by simp [machine]⟩

theorem Linked.congr (h : w.Linked) (hp : w.phase ≠ .closed) (hr : w'.repliers = w.repliers)
    (hl : w'.links = w.links) (hi : w'.isolate = w.isolate) : w'.Linked := by
  refine ⟨hr ▸ h.wf, by rw [hl, hr, h.length], by rw [hi, hl]; exact h.isolate, fun _ => ?_⟩
  simp only [Answered, hr, hl, hi]
  exact h.live hp

theorem Linked.swept (h : w.Linked) : w.swept.Linked :=
  ⟨h.wf.cleanup, h.length, h.isolate, h.live⟩

theorem phase_ne_closed_of_inJs (h : w.inJs = true) : w.phase ≠ .closed := by
  intro hp
  simp [inJs, hp] at h

theorem Linked.newPromise (h : w.Linked) (hp : w.phase ≠ .closed) :
    ({ w with isolate := w.isolate.newPromise } : Worker).Linked where
  wf := h.wf
  length := h.length
  isolate := h.isolate.newPromise
  live := by
    intro _ ptr link hl
    rw [h.live hp ptr link hl]
    have hv := h.isolate.valid link (List.mem_of_getElem? hl)
    simp only [Answered, Isolate.newPromise, List.getElem?_append_left hv]

theorem Linked.reject (h : w.Linked) (hp : w.phase ≠ .closed) {promise : Nat}
    (hpend : w.isolate.promises[promise]? = some .pending) :
    ({ w with isolate := w.isolate.reject promise } : Worker).Linked where
  wf := h.wf
  length := h.length
  isolate := h.isolate.reject hpend
  live := by
    intro _ ptr link hl
    rw [h.live hp ptr link hl]
    simp only [Answered, Isolate.reject, List.getElem?_set]
    by_cases hq : promise = link.promise
    · subst hq
      simp [hpend]
    · simp [hq]

theorem Linked.fulfil (h : w.Linked) (hp : w.phase ≠ .closed) {promise : Nat} {value : Value}
    (hpend : w.isolate.promises[promise]? = some .pending) :
    ({ w with isolate := w.isolate.fulfil promise value } : Worker).Linked where
  wf := h.wf
  length := h.length
  isolate := h.isolate.fulfil hpend
  live := by
    intro _ ptr link hl
    rw [h.live hp ptr link hl]
    have hjobs : ptr ∈ (w.isolate.fulfil promise value).jobs.map Prod.fst ↔
        ptr ∈ w.isolate.jobs.map Prod.fst ∨ (promise, ptr) ∈ w.isolate.reactions := by
      simp [Isolate.mem_fulfil_jobs, exists_or]
    have hprom : (w.isolate.fulfil promise value).promises =
        w.isolate.promises.set promise (.fulfilled value) := rfl
    simp only [Answered, hjobs, hprom, h.isolate.reactions, hl, Option.some.injEq,
      exists_eq_left', List.getElem?_set]
    by_cases hq : promise = link.promise
    · subst hq
      simp +contextual [hpend]
    · simp [hq, Ne.symm hq]

theorem Linked.job (h : w.Linked) (hp : w.phase ≠ .closed) {value : Value}
    {jobs : List (Nat × Value)} (hj : w.isolate.jobs = (ptr, value) :: jobs) :
    ({ w with repliers := (w.repliers.take ptr).1, isolate := { w.isolate with jobs := jobs } }
      : Worker).Linked where
  wf := h.wf.take ptr
  length := by simpa [Repliers.take] using h.length
  isolate := h.isolate.tail hj
  live := by
    intro _ q link hl
    have hlive := h.live hp q link hl
    simp only [Answered, hj, List.map_cons, List.mem_cons, not_or] at hlive
    simp only [Answered, Repliers.Live, Repliers.read_take]
    by_cases hq : q = ptr
    · subst hq
      obtain ⟨link', hl', hlinked, hf⟩ := h.isolate.jobs q value (by simp [hj])
      obtain rfl : link = link' := Option.some.inj (hl.symm.trans hl')
      have hn := h.isolate.nodup_jobs
      rw [hj, List.map_cons, List.nodup_cons] at hn
      simp [hlinked, hf, hn.1]
    · simpa [hq, Repliers.Live] using hlive

theorem Linked.live_of_job (h : w.Linked) (hp : w.phase ≠ .closed)
    (hj : ptr ∈ w.isolate.jobs.map Prod.fst) : w.repliers.Live ptr := by
  obtain ⟨v, hv⟩ : ∃ v, (ptr, v) ∈ w.isolate.jobs := by simpa using hj
  obtain ⟨link, hl, -⟩ := h.isolate.jobs ptr v hv
  exact (h.live hp ptr link hl).mpr fun ha => ha.2.2 hj

theorem Linked.registered (h : w.Linked) (hp : w.phase ≠ .closed) {reply promise : Nat}
    (hv : promise < w.isolate.promises.length) : (w.registered reply promise false).Linked where
  wf := h.wf.register reply
  length := by simp [Worker.registered, Repliers.register_boxes, h.length]
  isolate := h.isolate.concat _ _ hv (by simp)
  live := by
    intro _ ptr link hl
    simp only [Worker.registered, Repliers.Live, Repliers.read_register, Answered]
    obtain hl | ⟨rfl, rfl⟩ := List.getElem?_concat_eq_some.mp hl
    · have hne : ptr ≠ w.repliers.boxes.length := by
        rw [← h.length]
        exact Nat.ne_of_lt (List.getElem?_eq_some_iff.mp hl).1
      simpa [hne, Repliers.Live, Answered] using h.live hp ptr link hl
    · simp [h.length]

theorem Linked.registered_chain (h : w.Linked) (hp : w.phase ≠ .closed) {reply promise : Nat}
    (hv : promise < w.isolate.promises.length) :
    ({ w.registered reply promise true with
      isolate := w.isolate.chain promise w.repliers.boxes.length } : Worker).Linked where
  wf := h.wf.register reply
  length := by simp [Worker.registered, Repliers.register_boxes, h.length]
  isolate := h.length ▸ h.isolate.chain hv
  live := by
    intro _ ptr link hl
    simp only [Worker.registered, Repliers.Live, Repliers.read_register, Answered,
      Isolate.chain_promises]
    obtain hl | ⟨rfl, rfl⟩ := List.getElem?_concat_eq_some.mp hl
    · have hne : ptr ≠ w.repliers.boxes.length := by
        rw [← h.length]
        exact Nat.ne_of_lt (List.getElem?_eq_some_iff.mp hl).1
      have hjobs : ptr ∈ (w.isolate.chain promise w.repliers.boxes.length).jobs.map Prod.fst ↔
          ptr ∈ w.isolate.jobs.map Prod.fst := by
        unfold Isolate.chain
        split <;> simp [hne]
      simpa [hne, Repliers.Live, Answered, hjobs] using h.live hp ptr link hl
    · -- a promise that is fulfilled already gets its job at once
      simp only [h.length, if_true, Option.isSome_some, true_iff, not_and, not_not, true_imp_iff,
        forall_exists_index]
      intro value hf
      simp [Isolate.chain, hf]

theorem Linked.discardJobs (h : w.Linked) (hp : w.phase ≠ .closed) : w.discardJobs.Linked := by
  have hget : ∀ {ptr link}, w.discardJobs.links[ptr]? = some link ↔ ∃ old,
      w.links[ptr]? = some old ∧ link =
        if ptr ∈ w.isolate.jobs.map Prod.fst then { old with linked := false } else old := by
    intro ptr link
    rw [Worker.discardJobs, List.getElem?_mapIdx, Option.map_eq_some_iff]
    exact exists_congr fun old => and_congr_right fun _ => eq_comm
  refine ⟨h.wf, by simp [Worker.discardJobs, h.length], ⟨?_, ?_, by simp [Worker.discardJobs],
    h.isolate.nodup_reactions, by simp [Worker.discardJobs]⟩, ?_⟩
  · intro link hl
    obtain ⟨ptr, hl⟩ := List.mem_iff_getElem?.mp hl
    obtain ⟨old, hold, rfl⟩ := hget.mp hl
    have := h.isolate.valid old (List.mem_of_getElem? hold)
    split <;> exact this
  · intro promise ptr
    have hr : w.discardJobs.isolate.reactions = w.isolate.reactions := rfl
    have hp : w.discardJobs.isolate.promises = w.isolate.promises := rfl
    simp only [hget, hr, hp, h.isolate.reactions]
    constructor
    · rintro ⟨old, hold, rfl, hlinked, hpend⟩
      have hn : ptr ∉ w.isolate.jobs.map Prod.fst := by
        intro hj
        obtain ⟨v, hj⟩ : ∃ v, (ptr, v) ∈ w.isolate.jobs := by simpa using hj
        obtain ⟨old', hold', -, hf⟩ := h.isolate.jobs ptr v hj
        obtain rfl : old = old' := Option.some.inj (hold.symm.trans hold')
        rw [hpend] at hf
        cases hf
      exact ⟨old, ⟨old, hold, by rw [if_neg hn]⟩, rfl, hlinked, hpend⟩
    · rintro ⟨link, ⟨old, hold, rfl⟩, rfl, hlinked, hpend⟩
      split at hlinked
      · cases hlinked
      · rename_i hn
        rw [if_neg hn] at hpend ⊢
        exact ⟨old, hold, rfl, hlinked, hpend⟩
  · intro _ ptr link hl
    obtain ⟨old, hold, rfl⟩ := hget.mp hl
    have hlive := h.live hp ptr old hold
    by_cases hj : ptr ∈ w.isolate.jobs.map Prod.fst
    · rw [if_pos hj]
      simpa [Answered, hj, Worker.discardJobs] using hlive
    · rw [if_neg hj]
      simpa [Answered, hj, Worker.discardJobs] using hlive

theorem Linked.resumed (h : w.Linked) (hr : Resumed w w' o) : w'.Linked := by
  cases hr with
  | halt phase => exact h.swept.congr (by simp [Worker.swept, phase]) rfl rfl rfl
  | call phase => exact h.swept.congr (by simp [Worker.swept, phase]) rfl rfl rfl
  | skip phase => exact h.swept.congr (by simp [Worker.swept, phase]) rfl rfl rfl
  | drained phase => exact h.congr (by simp [phase]) rfl rfl rfl
  | polled phase => exact h.congr (by simp [phase]) rfl rfl rfl

theorem Linked.returned (h : w.Linked) {reply : Nat} {result : CallResult}
    (hp : w.phase = .calling reply) (hr : Returned w reply result w' o) : w'.Linked := by
  have hopen : w.phase ≠ .closed := by simp [hp]
  cases hr with
  | value => exact h.congr hopen rfl rfl rfl
  | chained valid => exact h.registered_chain hopen valid
  | notRegistered valid => exact h.registered hopen valid
  | noFunction valid => exact (h.registered hopen valid).congr (by simp [Worker.registered]) rfl rfl rfl

theorem resumed_phase (hr : Resumed w w' o) : w.phase ≠ .closed := by
  cases hr <;> simp [*]

theorem Linked.step (h : w.Linked) (hs : Step w a w' o) : w'.Linked := by
  cases hs with
  | push rx room =>
    exact h.congr (fun hp => by simp [rxOpen, hp] at rx) rfl rfl rfl
  | unmonitored | cancel => exact ⟨h.wf, h.length, h.isolate, fun hp => absurd rfl hp⟩
  | initLoop phase outcome => exact h.congr (by simp [phase]) rfl rfl rfl
  | initError phase outcome => exact h.congr (by simp [phase]) rfl rfl rfl
  | recv phase head => exact h.congr (by simp [phase]) rfl rfl rfl
  | newPromise js => exact h.newPromise (phase_ne_closed_of_inJs js)
  | fulfil js pending => exact h.fulfil (phase_ne_closed_of_inJs js) pending
  | reject js pending => exact h.reject (phase_ne_closed_of_inJs js) pending
  | callFetch js => exact h.congr (phase_ne_closed_of_inJs js) rfl rfl rfl
  | job js head => exact h.job (phase_ne_closed_of_inJs js) head
  | resume drained hr => exact h.resumed hr
  | retThrew phase => exact h.congr (by simp [phase]) rfl rfl rfl
  | ret phase drained hr => exact h.returned phase hr
  | retTerminated phase flag hr =>
    have hopen : w.phase ≠ .closed := by simp [phase]
    have hflag : ({ w with terminating := false } : Worker).Linked := h.congr hopen rfl rfl rfl
    exact (hflag.discardJobs hopen).returned phase hr
  | terminateCall flag phase => exact h.congr (by simp [phase]) rfl rfl rfl
  | terminate flag hr =>
    have hp := resumed_phase hr
    have hflag : ({ w with terminating := false } : Worker).Linked := h.congr hp rfl rfl rfl
    exact (hflag.discardJobs hp).resumed hr
  | pollPending phase live => exact h.congr (by rcases phase with hp | hp <;> simp [hp]) rfl rfl rfl
  | pollReady phase live => exact h.congr (by rw [phase]; split <;> simp) rfl rfl rfl
  | close phase | cancelClosing phase =>
    exact ⟨h.wf.drop, by simp [h.length, Repliers.drop_boxes_length], h.isolate,
      fun hp => absurd rfl hp⟩
  | monitorLeave watching =>
    by_cases hp : w.phase = .closed
    · exact ⟨h.wf, h.length, h.isolate, fun hn => absurd hp hn⟩
    · exact h.congr hp rfl rfl rfl
  | monitorSend halting rx room =>
    exact h.congr (fun hp => by simp [rxOpen, hp] at rx) rfl rfl rfl
  | monitorSendFailed halting rx =>
    by_cases hp : w.phase = .closed
    · exact ⟨h.wf, h.length, h.isolate, fun hn => absurd hp hn⟩
    · exact h.congr hp rfl rfl rfl
  | monitorDone waiting resolved =>
    by_cases hp : w.phase = .closed
    · exact ⟨h.wf, h.length, h.isolate, fun hn => absurd hp hn⟩
    · exact h.congr hp rfl rfl rfl

end Worker

end Serverlessd
