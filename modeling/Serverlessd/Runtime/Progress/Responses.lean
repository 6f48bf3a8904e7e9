import Serverlessd.Runtime.Progress.Returns

/-! Every HTTP request comes to its response, but for one whose event its worker keeps for ever. -/

namespace Serverlessd

namespace App

variable {srv : Server} {c : Config} {s s' : App} {a : AppAct} {i j n : Nat} {v : Visit}
variable {op : Op} {x : Exchange}

def ended (x : Exchange) : Prop := x.call = none ∧ (x.body.isSome ∨ x.status.isSome ∨ x.panicked = true)

theorem ended_of_outcome {r : Runtime} {req : Request} {now : Nat} {l : List (Nat × Op)}
    (h : Outcome srv r req now l x) (hx : x.call = none) : ended x := by
  refine ⟨hx, ?_⟩
  unfold Outcome at h
  split at h
  · cases h with
    | stopped =>
      cases hv : srv.verdict req now with
      | unauthorized | badRequest => exact .inr (.inl rfl)
      | crashed | unreadable => exact .inr (.inr rfl)
      | handled payload =>
        rw [hv] at hx
        cases hx
    | handled => exact .inl rfl
  · cases h with
    | creating | executing => cases hx
    | notCreated | notExecuted | executed => exact .inl rfl
  · obtain ⟨-, rfl⟩ := h
    exact .inl rfl

theorem call_resume {answer : Answer} : (Handler.resume x op answer).call = none ∨
    ∃ name pod wrk, op = .createWorker name ∧
      (Handler.resume x op answer).call = some (.sendHttpToWorker pod wrk) := by
  unfold Handler.resume
  split
  · exact .inr ⟨_, _, _, rfl, rfl⟩
  · exact .inl rfl
  · exact .inl rfl
  · exact .inl rfl
  · split <;> exact .inl rfl
  · exact .inl rfl

def runtimeAct (srv : Server) (s : App) : AppAct → Option RuntimeAct
  | .request req now => (srv.service req now).call.map (.issue s.visits.length)
  | .resume i =>
    match s.visits[i]? with
    | none => none
    | some v =>
      match v.exchange.call, s.runtime.returned v.call with
      | some op, some answer => (Handler.resume v.exchange op answer).call.map (.issue i)
      | _, _ => none
  | .runtime a => some a

def Advances (s s' : App) : Option RuntimeAct → Prop
  | some d => s.runtime.step d = some s'.runtime
  | none => s'.runtime = s.runtime

theorem advances_of_issue {t : App} (ht : t.runtime = s.runtime) (h : t.issue i j v = some s') :
    s.Advances s' (v.exchange.call.map (.issue i)) := by
  unfold issue at h
  cases hop : v.exchange.call with
  | none =>
    simp only [hop] at h
    cases h
    exact ht
  | some op =>
    simp only [hop] at h
    obtain ⟨runtime, hs, rfl⟩ := Option.map_eq_some_iff.mp h
    exact ht ▸ hs

theorem advances_of_step (hs : s.step srv a = some s') : s.Advances s' (runtimeAct srv s a) := by
  cases a with
  | request req now =>
    exact advances_of_issue (v := ⟨req, now, srv.service req now, 0⟩) (by rfl) hs
  | resume i =>
    simp only [App.step, stepFrom] at hs
    split at hs
    · cases hs
    · rename_i v hv
      split at hs
      · rename_i op answer hop hanswer
        have hact : runtimeAct srv s (.resume i) =
            (Handler.resume v.exchange op answer).call.map (.issue i) := by
          simp only [runtimeAct, hv, hop, hanswer]
        exact hact ▸ advances_of_issue rfl hs
      · cases hs
  | runtime d =>
    cases d with
    | issue => cases hs
    | _ =>
      obtain ⟨runtime, hr, rfl⟩ := Option.map_eq_some_iff.mp hs
      exact hr

theorem runtime_isPart (srv : Server) (c : Config) : Machine.Behaviour.IsPart (machine srv c)
    (Runtime.machine c) App.runtime (runtimeAct srv) where
  init := rfl
  step := by
    intro s a s' d hs hd
    have hadvances := @advances_of_step srv s s' a hs
    rwa [hd] at hadvances
  rest := by
    intro s a s' hs hd
    have hadvances := @advances_of_step srv s s' a hs
    rwa [hd] at hadvances

theorem Step.visit (hs : Step 0 srv s s' a) (hv : s'.visits[i]? = some v) :
    s.visits[i]? = some v ∨ v.call = s.runtime.calls.length ∧ Issued s s' i v.exchange := by
  cases hs with
  | request visits issued =>
    rw [visits] at hv
    obtain hv | ⟨rfl, rfl⟩ := List.getElem?_concat_eq_some.mp hv
    · exact .inl hv
    · exact .inr ⟨rfl, issued⟩
  | resume visit waits returned visits issued =>
    rw [visits] at hv
    obtain ⟨rfl, rfl⟩ | ⟨-, hv⟩ := List.getElem?_set_cases hv
    · exact .inr ⟨rfl, issued⟩
    · exact .inl hv
  | runtime other visits step => exact .inl (visits ▸ hv)

theorem Issued.pending (h : Issued s s' i x) (hop : x.call = some op) :
    s'.runtime.Pending s.runtime.calls.length i op := by
  simp only [Issued, hop] at h
  generalize s'.runtime = r at h
  cases h with
  | issue => exact ⟨.sending, by simp, nofun⟩

section Behaviours

variable {b : (machine srv c).Behaviour}

def runtimeOf (b : (machine srv c).Behaviour) : (Runtime.machine c).Behaviour :=
  b.ofPart (runtime_isPart srv c)

structure Fair (b : (machine srv c).Behaviour) : Prop where
  runtime : Runtime.Fair (runtimeOf b)
  clients : Runtime.Attends (runtimeOf b)
  handlers : ∀ i, b.WeaklyFair (· = .resume i)

def Stays (b : (machine srv c).Behaviour) (i : Nat) : Prop :=
  ∀ n v, (b.state n).visits[i]? = some v → b.act n ≠ some (.runtime (.abandon v.call))

theorem abandon_of_runtimeOf {call : Nat} (h : (runtimeOf b).act n = some (.abandon call)) :
    b.act n = some (.runtime (.abandon call)) := by
  obtain ⟨a, hact, ha⟩ := Machine.Behaviour.ofPart_act.mp h
  cases a with
  | request req now =>
    obtain ⟨op, -, hop⟩ := Option.map_eq_some_iff.mp ha
    cases hop
  | resume i =>
    simp only [runtimeAct] at ha
    split at ha
    · cases ha
    · split at ha
      · obtain ⟨op, -, hop⟩ := Option.map_eq_some_iff.mp ha
        cases hop
      · cases ha
  | runtime d =>
    cases ha
    exact hact

theorem pending_at (hp : Stays b i) (hv : (b.state n).visits[i]? = some v)
    (hop : v.exchange.call = some op) : (b.state n).runtime.Pending v.call i op := by
  induction n generalizing v with
  | zero =>
    rw [b.start] at hv
    cases hv
  | succ n ih =>
    cases ha : b.act n with
    | none =>
      rw [b.idle n ha] at hv ⊢
      exact ih hv hop
    | some a =>
      obtain hv | ⟨hcall, hissued⟩ := (step_sound (b.step n a ha)).visit hv
      · have hpending := ih hv hop
        cases hr : (runtimeOf b).act n with
        | none =>
          have hsame : (b.state (n + 1)).runtime = (b.state n).runtime := (runtimeOf b).idle n hr
          exact hsame ▸ hpending
        | some d =>
          refine hpending.step (Runtime.machine_sound ((runtimeOf b).step n d hr)) fun he => ?_
          exact hp n v hv (abandon_of_runtimeOf (he ▸ hr))
      · exact hcall ▸ hissued.pending hop

theorem resumed_of_step (hs : (machine srv c).step s (.resume i) = some s')
    (hv : s.visits[i]? = some v) : ∃ op answer, v.exchange.call = some op ∧ s'.visits[i]? =
      some { v with exchange := Handler.resume v.exchange op answer, call := s.runtime.calls.length } := by
  have hs : s.step srv (.resume i) = some s' := hs
  simp only [App.step, stepFrom, hv] at hs
  split at hs
  · rename_i op answer hop hanswer
    have hlt := (List.getElem?_eq_some_iff.mp hv).1
    refine ⟨op, answer, hop, ?_⟩
    rw [(issued_of_issue hs).1]
    exact List.getElem?_set_self hlt
  · cases hs

theorem visit_of_step (hs : (machine srv c).step s a = some s') (ha : a ≠ .resume i)
    (hv : s.visits[i]? = some v) : s'.visits[i]? = some v := by
  have hlt := (List.getElem?_eq_some_iff.mp hv).1
  cases step_sound hs with
  | request visits => rw [visits, List.getElem?_append_left hlt, hv]
  | @resume j _ _ _ _ _ _ visits =>
    have hj : j ≠ i := fun he => ha (by rw [he])
    rw [visits, List.getElem?_set_ne hj, hv]
  | runtime _ visits => rw [visits, hv]

theorem Answered.returned {r : Runtime} {req : Request} {now k : Nat} {l : List (Nat × Op)}
    (h : Answered srv r req now l x) (hm : (k, op) ∈ l) : ∃ answer, r.returned k = some answer := by
  induction h with
  | begun => cases hm
  | resumed _ _ returned ih =>
    obtain hm | hm := List.mem_append.mp hm
    · exact ih hm
    · obtain ⟨rfl, -⟩ := Prod.mk.inj (List.mem_singleton.mp hm)
      exact ⟨_, returned⟩

theorem idle_of_returned (hf : s.Followed srv) (ho : s.runtime.fifo.Ordered) {answer : Answer}
    (hv : s.visits[i]? = some v) (hop : v.exchange.call = some op)
    (hr : s.runtime.returned v.call = some answer) :
    ∀ c ∈ s.runtime.calls, c.client = i → c.status = .done := by
  intro c hc hclient
  obtain ⟨k, hget⟩ := List.mem_iff_getElem?.mp hc
  obtain ⟨l, hl, ha⟩ := hf.visits i v hv
  have hasks : s.runtime.asks[k]? = some (i, c.op) := by
    simp [Runtime.asks, hget, hclient]
  have hdone : ∃ answer, s.runtime.returned k = some answer := by
    obtain hm | hm := List.mem_append.mp ((ha k c.op).mp hasks)
    · exact hl.returned hm
    · obtain ⟨rfl, -⟩ : k = v.call ∧ c.op = op := by simpa [hop] using hm
      exact ⟨answer, hr⟩
  obtain ⟨answer, hk⟩ := hdone
  obtain ⟨d, hd, hstatus⟩ := ho.returned k answer (Runtime.mem_history_of_returned hk)
  have hsame : d = (c.client, c.status) := by simpa [Runtime.fifo, hget] using hd.symm
  rw [hsame] at hstatus
  exact hstatus

theorem resume_enabled (hf : s.Followed srv) (ho : s.runtime.fifo.Ordered) {answer : Answer}
    (hv : s.visits[i]? = some v) (hop : v.exchange.call = some op)
    (hr : s.runtime.returned v.call = some answer) :
    ((machine srv c).step s (.resume i)).isSome := by
  have hidle := idle_of_returned hf ho hv hop hr
  simp only [machine, App.step, stepFrom, Nat.add_zero, hv, hop, hr, issue]
  split
  · rfl
  · rw [Option.isSome_map, Runtime.step, if_pos hidle]
    rfl

theorem followed (b : (machine srv c).Behaviour) (n : Nat) : (b.state n).Followed srv :=
  b.invariant (followed_start c) (fun hi hs => hi.step (step_sound hs)) n

theorem ordered (b : (machine srv c).Behaviour) (n : Nat) : (b.state n).runtime.fifo.Ordered :=
  (Runtime.tracked (runtimeOf b) n).sequenced.ordered

theorem Fair.goes_on (hf : Fair b) (hp : Stays b i) (hv : (b.state n).visits[i]? = some v)
    (hop : v.exchange.call = some op) :
    (∃ m answer call, n ≤ m ∧ (b.state m).visits[i]? =
      some { v with exchange := Handler.resume v.exchange op answer, call }) ∨
    ∃ m pod wrk, n ≤ m ∧ op = .sendHttpToWorker pod wrk ∧ ∀ k, m ≤ k →
      (b.state k).visits[i]? = some v ∧ (b.state k).runtime.HeldBy v.call pod wrk := by
  have hkeep : ∀ {s a s'}, a ≠ .resume i → s.visits[i]? = some v →
      (machine srv c).step s a = some s' → s'.visits[i]? = some v :=
    fun ha hv hs => visit_of_step hs ha hv
  by_cases hres : ∃ m, n ≤ m ∧ b.Takes (· = .resume i) m
  · obtain ⟨m, hm, ⟨a, rfl, hact⟩, hv⟩ := Machine.Behaviour.exists_first hkeep hv hres
    obtain ⟨op', answer, hop', hv'⟩ := resumed_of_step (b.step m _ hact) hv
    obtain rfl := Option.some.inj (hop'.symm.trans hop)
    exact .inl ⟨m + 1, answer, _, Nat.le_succ_of_le hm, hv'⟩
  · have hstays : ∀ m, n ≤ m → (b.state m).visits[i]? = some v := fun m hm =>
      Machine.Behaviour.persists hkeep hv hm fun k hk _ ht => hres ⟨k, hk, ht⟩
    have hno : ∀ m, n ≤ m → (runtimeOf b).act m ≠ some (.abandon v.call) := fun m hm ha =>
      hp m v (hstays m hm) (abandon_of_runtimeOf ha)
    obtain ⟨m, hm, hreturned | ⟨pod, wrk, rfl, hheld⟩⟩ :=
      hf.clients.settles hf.runtime hno (pending_at hp hv hop)
    · -- from then on the handler can go on
      obtain ⟨answer, hr⟩ := Option.isSome_iff_exists.mp hreturned
      have hr : ∀ k, m ≤ k → (b.state k).runtime.returned v.call = some answer := fun k hk =>
        b.stays (P := fun s => s.runtime.returned v.call = some answer)
          (fun h hs => (step_sound hs).returned h) hr hk
      obtain ⟨k, hk, ht⟩ := hf.handlers i m fun k hk =>
        ⟨.resume i, rfl, resume_enabled (followed b k) (ordered b k) (hstays k (Nat.le_trans hm hk)) hop
          (hr k hk)⟩
      exact absurd ⟨k, Nat.le_trans hm hk, ht⟩ hres
    · exact .inr ⟨m, pod, wrk, hm, rfl, fun k hk => ⟨hstays k (Nat.le_trans hm hk), hheld k hk⟩⟩

theorem ended_at (hv : (b.state n).visits[i]? = some v) (hop : v.exchange.call = none) :
    ended v.exchange := by
  obtain ⟨l, hl, -⟩ := (followed b n).visits i v hv
  exact ended_of_outcome (outcome_of_answered hl) hop

/-- Every request is answered as long as its client stays, unless from some point on its worker
keeps the reply for its event. -/
theorem responded (hf : Fair b) (hp : Stays b i) (hv : (b.state n).visits[i]? = some v) :
    (∃ m w, n ≤ m ∧ (b.state m).visits[i]? = some w ∧ ended w.exchange) ∨
      ∃ m w pod wrk, n ≤ m ∧ w.exchange.call = some (.sendHttpToWorker pod wrk) ∧ ∀ k, m ≤ k →
        (b.state k).visits[i]? = some w ∧ (b.state k).runtime.HeldBy w.call pod wrk := by
  cases hop : v.exchange.call with
  | none => exact .inl ⟨n, v, Nat.le_refl n, hv, ended_at hv hop⟩
  | some op =>
    obtain ⟨m, answer, call, hm, hw⟩ | ⟨m, pod, wrk, hm, rfl, hheld⟩ := hf.goes_on hp hv hop
    · obtain hnone | ⟨name, pod, wrk, rfl, hsend⟩ := @call_resume op v.exchange answer
      · exact .inl ⟨m, _, hm, hw, ended_at hw hnone⟩
      · obtain ⟨k, answer, call, hk, hu⟩ | ⟨k, pod', wrk', hk, he, hheld⟩ := hf.goes_on hp hw hsend
        · refine .inl ⟨k, _, Nat.le_trans hm hk, hu, ended_at hu ?_⟩
          exact call_resume.resolve_right nofun
        · exact .inr ⟨k, _, pod', wrk', Nat.le_trans hm hk, he ▸ hsend, hheld⟩
    · exact .inr ⟨m, v, pod, wrk, hm, hop, hheld⟩

end Behaviours

theorem ofRun_fair {as : List AppAct} (h : (machine srv c).Run as s)
    (task : ∀ a : RuntimeAct, a.ofTask → s.runtime.step a = none)
    (pods : ∀ idx (a : RuntimeAct), a.worksAt idx → s.runtime.step a = none)
    (workers : ∀ n idx i w, ((Machine.Behaviour.ofRun h).state n).runtime.workerAt idx i = some w →
      w.events ≠ [] → ∃ m, n ≤ m ∧ ∃ v,
        ((Machine.Behaviour.ofRun h).state m).runtime.workerAt idx i = some v ∧
        ∃ a, as[m]? = some (.runtime (.pod idx (.worker i a))) ∧ v.Processes a)
    (calls : ∀ call (a : RuntimeAct), a.concerns call → s.runtime.step a = none)
    (resumes : ∀ i, (machine srv c).step s (.resume i) = none) : Fair (Machine.Behaviour.ofRun h) := by
  have hend : ∀ m, as.length ≤ m → (runtimeOf (Machine.Behaviour.ofRun h)).state m = s.runtime :=
    fun m hm => congrArg App.runtime (Machine.Behaviour.ofRun_state h hm)
  refine ⟨⟨?_, fun idx => ?_, fun n idx i w hw _ he => ?_⟩, ⟨fun call => ?_, fun call => ?_⟩, fun i => ?_⟩
  · exact (Machine.Behaviour.stronglyFair_of_settled hend task).weaklyFair
  · exact (Machine.Behaviour.stronglyFair_of_settled hend (pods idx)).weaklyFair
  · obtain ⟨m, hm, v, hv, a, hact, hp⟩ := workers n idx i w hw he
    exact ⟨m, hm, v, hv, .inr ⟨a, Machine.Behaviour.ofPart_act.mpr ⟨_, hact, rfl⟩, hp⟩⟩
  · refine Machine.Behaviour.stronglyFair_of_settled hend ?_
    rintro a (rfl | rfl)
    · exact calls call (.enqueue call) rfl
    · exact calls call (.refuse call) rfl
  · refine (Machine.Behaviour.stronglyFair_of_settled hend ?_).weaklyFair
    rintro a rfl
    exact calls call (.ret call) rfl
  · refine Machine.Behaviour.ofRun_weaklyFair h ?_
    rintro a rfl
    exact resumes i

theorem responded_answeredRun : ∃ b : (machine ⟨"secret", cryptoX⟩ Runtime.oneWorker).Behaviour,
    Fair b ∧ Stays b 0 ∧ (1, 0, 0) ∈ (b.state 14).runtime.delivered ∧
    ((∃ m w, 1 ≤ m ∧ (b.state m).visits[0]? = some w ∧ ended w.exchange) ∨
      ∃ m w pod wrk, 1 ≤ m ∧ w.exchange.call = some (.sendHttpToWorker pod wrk) ∧ ∀ k, m ≤ k →
        (b.state k).visits[0]? = some w ∧ (b.state k).runtime.HeldBy w.call pod wrk) := by
  obtain ⟨s, hrun, htask, hpods, hcalls, hresumes⟩ : ∃ s,
      (machine ⟨"secret", cryptoX⟩ Runtime.oneWorker).Run answeredRun s ∧
      (∀ a : RuntimeAct, a.ofTask → s.runtime.step a = none) ∧
      (∀ idx (a : RuntimeAct), a.worksAt idx → s.runtime.step a = none) ∧
      (∀ call (a : RuntimeAct), a.concerns call → s.runtime.step a = none) ∧
      ∀ i, (machine ⟨"secret", cryptoX⟩ Runtime.oneWorker).step s (.resume i) = none := by
    refine ⟨_, rfl, fun a ha => ?_, fun idx a ha => ?_, fun call a ha => ?_, fun i => ?_⟩
    · cases a with
      | recv | send => rfl
      | _ => exact ha.elim
    · cases a with
      | pod i d =>
        obtain ⟨rfl, hd⟩ := ha
        cases d with
        | recv | send | token => cases i <;> rfl
        | _ => exact hd.elim
      | _ => exact ha.elim
    · cases a with
      | enqueue call | refuse call | abandon call | ret call =>
        match call with
        | 0 | 1 | _ + 2 => rfl
      | _ => exact ha.elim
    · cases i <;> rfl
  have hlast := Machine.Behaviour.ofRun_at (P := fun n s => ∀ p ∈ s.runtime.pods, ∀ w ∈ p.tasks,
      w.events ≠ [] → n < 17) hrun (by decide +kernel)
  have hone := Machine.Behaviour.ofRun_invariant (P := fun s => s.runtime.pods.length ≤ 1 ∧
      ∀ p ∈ s.runtime.pods, p.tasks.length ≤ 1) hrun (by decide +kernel)
  have hfair : Fair (Machine.Behaviour.ofRun hrun) := by
    refine ofRun_fair hrun htask hpods (fun n idx i w hw he => ?_) hcalls hresumes
    obtain ⟨p, get, hwork⟩ := Runtime.workerAt_eq_some.mp hw
    have hmem := List.mem_of_getElem? get
    have hlt : n < 17 := by simpa [answeredRun] using hlast n p hmem w (List.mem_of_getElem? hwork) he
    obtain ⟨rfl, rfl⟩ : idx = 0 ∧ i = 0 := by
      obtain ⟨hidx, hi⟩ := hone n
      exact ⟨Nat.lt_one_iff.mp (Nat.lt_of_lt_of_le (List.getElem?_eq_some_iff.mp get).1 hidx),
        Nat.lt_one_iff.mp (Nat.lt_of_lt_of_le (List.getElem?_eq_some_iff.mp hwork).1 (hi p hmem))⟩
    exact ⟨16, Nat.le_of_lt_succ hlt, _, rfl, .resume, rfl, _, rfl⟩
  have hstays : Stays (Machine.Behaviour.ofRun hrun) 0 := by
    intro n v _ hact
    have hmem : AppAct.runtime (.abandon v.call) ∈ answeredRun := List.mem_of_getElem? hact
    simp [answeredRun] at hmem
  exact ⟨_, hfair, hstays, List.mem_singleton_self _, responded hfair hstays (v := _) rfl⟩

end App

end Serverlessd
