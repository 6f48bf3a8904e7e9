import Mathlib.Data.List.Perm.Subperm
import Serverlessd.Runtime.Worker.Settled

universe u

namespace Serverlessd

/-- `added` are the pointers stored so far and `taken` those whose sender a callback took;
`adding` has the slot and the pointer of a replier that is being added, and `peak` is the
largest number of unanswered repliers so far. -/
structure Registry (R : Type u) where
  repliers : Repliers R := {}
  adding : Option (Nat × Nat) := none
  added : List Nat := []
  taken : List Nat := []
  peak : Nat := 0

inductive RegistryAct (R : Type u)
  | next (reply : R)
  | add
  | take (ptr : Nat)
  | cleanup

namespace Registry

variable {R : Type u}

def unanswered (s : Registry R) : Nat :=
  s.added.countP (· ∉ s.taken) + s.adding.toList.length

def move (s : Registry R) : RegistryAct R → Option (Registry R)
  | .next reply =>
    match s.adding with
    | some _ => none
    | none =>
      let leaked := s.repliers.leak reply
      let next := leaked.1.getNextReplierIdx
      some { s with repliers := next.1, adding := some (next.2, leaked.2) }
  | .add =>
    match s.adding with
    | some (idx, ptr) =>
      some { s with
        repliers := s.repliers.addReplier idx ptr, adding := none, added := ptr :: s.added }
    | none => none
  | .take ptr =>
    if ptr ∈ s.added then
      some { s with repliers := (s.repliers.take ptr).1, taken := ptr :: s.taken }
    else none
  | .cleanup => some { s with repliers := s.repliers.cleanupDeadRepliers }

def step (s : Registry R) (a : RegistryAct R) : Option (Registry R) :=
  (s.move a).map fun t => { t with peak := max s.peak t.unanswered }

variable (R) in
def machine : Machine (Registry R) (RegistryAct R) := ⟨{}, step⟩

/-- The slot of a replier that is being added is there and empty, no pointer is stored twice,
the stored repliers with a sender are those that were added and not taken, and the table has
never been longer than there were unanswered repliers at once. -/
structure Sound (s : Registry R) : Prop where
  slot : ∀ idx ptr, s.adding = some (idx, ptr) → s.repliers.table[idx]? = some none
  nodup : ∀ (i j ptr : Nat), s.repliers.table[i]? = some (some ptr) →
    s.repliers.table[j]? = some (some ptr) → i = j
  stored : ∀ ptr, some ptr ∈ s.repliers.table ∧ s.repliers.Live ptr ↔
    ptr ∈ s.added ∧ ptr ∉ s.taken
  length : s.repliers.table.length ≤ s.peak

structure Inv (s : Registry R) : Prop where
  stored : ∀ ptr, some ptr ∈ s.repliers.table → ptr ∈ s.added
  kept : ∀ ptr ∈ s.added, ptr ∉ s.taken → some ptr ∈ s.repliers.table
  live : ∀ ptr ∈ s.added, s.repliers.Live ptr ↔ ptr ∉ s.taken
  allocated : ∀ ptr ∈ s.added, ptr < s.repliers.boxes.length
  complete : ∀ ptr < s.repliers.boxes.length, ptr ∈ s.added ∨ ∃ idx, s.adding = some (idx, ptr)
  taken : ∀ ptr ∈ s.taken, ptr ∈ s.added
  nodup : s.repliers.table.reduceOption.Nodup
  adding : ∀ idx ptr, s.adding = some (idx, ptr) → s.repliers.table[idx]? = some none ∧
    ptr ∉ s.added ∧ s.repliers.Live ptr ∧ ptr < s.repliers.boxes.length
  length : s.repliers.table.length ≤ s.peak

variable {s s' : Registry R} {a : RegistryAct R} {as : List (RegistryAct R)}

theorem inv_init : (machine R).init.Inv := by
  constructor <;> simp [machine]

theorem Inv.full_length (h : s.Inv) {table : List (Option Nat)}
    (full : ∀ slot ∈ table, slot.isSome) (hn : table.reduceOption.Nodup)
    (hlive : ∀ ptr, some ptr ∈ table → ptr ∈ s.added ∧ s.repliers.Live ptr) :
    table.length ≤ s.added.countP (· ∉ s.taken) := by
  rw [← List.reduceOption_length_eq_iff.mpr full, List.countP_eq_length_filter]
  apply List.Subperm.length_le
  apply List.subperm_of_subset hn
  intro ptr hp
  obtain ⟨hadded, hl⟩ := hlive ptr (List.reduceOption_mem_iff.mp hp)
  simpa [hadded] using (h.live ptr hadded).mp hl

theorem Inv.cleanup (h : s.Inv) : Inv { s with repliers := s.repliers.cleanupDeadRepliers } where
  stored ptr hp := h.stored ptr (Repliers.mem_cleanup.mp hp).1
  kept ptr ha ht := Repliers.mem_cleanup.mpr ⟨h.kept ptr ha ht, (h.live ptr ha).mpr ht⟩
  live := h.live
  allocated := h.allocated
  complete := h.complete
  taken := h.taken
  nodup := Repliers.nodup_cleanup h.nodup
  adding idx ptr ha := by
    obtain ⟨hslot, hrest⟩ := h.adding idx ptr ha
    exact ⟨by simp [Repliers.cleanupDeadRepliers, hslot], hrest⟩
  length := by simpa [Repliers.cleanupDeadRepliers] using h.length

theorem Inv.take (h : s.Inv) {ptr : Nat} (hp : ptr ∈ s.added) :
    Inv { s with repliers := (s.repliers.take ptr).1, taken := ptr :: s.taken } where
  stored := h.stored
  kept q hq ht := h.kept q hq fun hm => ht (List.mem_cons_of_mem _ hm)
  live q hq := by
    have hl := h.live q hq
    unfold Repliers.Live at hl ⊢
    rw [Repliers.read_take]
    by_cases he : q = ptr
    · simp [he]
    · simpa [he] using hl
  allocated q hq := by simpa [Repliers.take] using h.allocated q hq
  complete q hq := h.complete q (by simpa [Repliers.take] using hq)
  taken q hq := by
    obtain rfl | hq := List.mem_cons.mp hq
    · exact hp
    · exact h.taken q hq
  nodup := h.nodup
  adding idx q ha := by
    obtain ⟨hslot, hnew, hl, hlt⟩ := h.adding idx q ha
    have hne : q ≠ ptr := fun he => hnew (he ▸ hp)
    refine ⟨hslot, hnew, ?_, by simpa [Repliers.take] using hlt⟩
    simpa [Repliers.Live, Repliers.read_take, hne] using hl
  length := h.length

theorem Inv.add (h : s.Inv) {idx ptr : Nat} (ha : s.adding = some (idx, ptr)) :
    Inv { s with
      repliers := s.repliers.addReplier idx ptr, adding := none, added := ptr :: s.added } := by
  obtain ⟨hslot, hnew, hl, hlt⟩ := h.adding idx ptr ha
  have hmem : ∀ q, some q ∈ (s.repliers.addReplier idx ptr).table ↔
      q = ptr ∨ some q ∈ s.repliers.table := fun q => Repliers.some_mem_set_of_empty hslot
  have htaken : ptr ∉ s.taken := fun hm => hnew (h.taken ptr hm)
  constructor
  case stored => exact fun q hq => List.mem_cons.mpr (((hmem q).mp hq).imp_right (h.stored q))
  case kept =>
    intro q hq ht
    exact (hmem q).mpr ((List.mem_cons.mp hq).imp_right fun hq => h.kept q hq ht)
  case live =>
    intro q hq
    obtain rfl | hq := List.mem_cons.mp hq
    · exact ⟨fun _ => htaken, fun _ => hl⟩
    · exact h.live q hq
  case allocated =>
    intro q hq
    obtain rfl | hq := List.mem_cons.mp hq
    · exact hlt
    · exact h.allocated q hq
  case complete =>
    intro q hq
    obtain hm | ⟨i, he⟩ := h.complete q hq
    · exact .inl (List.mem_cons_of_mem _ hm)
    · cases ha.symm.trans he
      exact .inl List.mem_cons_self
  case taken => exact fun q hq => List.mem_cons_of_mem _ (h.taken q hq)
  case nodup =>
    apply (Repliers.reduceOption_set_of_empty hslot).nodup_iff.mpr
    apply List.nodup_cons.mpr
    exact ⟨fun hm => hnew (h.stored ptr (List.reduceOption_mem_iff.mp hm)), h.nodup⟩
  case adding => simp
  case length => simpa [Repliers.addReplier] using h.length

theorem Inv.next (h : s.Inv) (ha : s.adding = none) (reply : R) {t : Registry R}
    (ht : s.move (.next reply) = some t) : Inv { t with peak := max s.peak t.unanswered } := by
  simp only [move, ha] at ht
  cases ht
  have hread : ∀ ptr ∈ s.added, (s.repliers.leak reply).1.read ptr = s.repliers.read ptr := by
    intro ptr hp
    rw [Repliers.read_leak, if_neg (Nat.ne_of_lt (h.allocated ptr hp))]
  constructor
  case stored => exact fun ptr hp => h.stored ptr (Repliers.mem_getNextReplierIdx.mp hp).1
  case kept =>
    intro ptr hp htaken
    apply Repliers.mem_getNextReplierIdx.mpr
    refine ⟨h.kept ptr hp htaken, ?_⟩
    rw [Repliers.Live, hread ptr hp]
    exact (h.live ptr hp).mpr htaken
  case live =>
    intro ptr hp
    rw [Repliers.Live, Repliers.read_getNextReplierIdx, hread ptr hp]
    exact h.live ptr hp
  case allocated =>
    intro ptr hp
    rw [Repliers.getNextReplierIdx_boxes]
    simpa [Repliers.leak] using Nat.lt_succ_of_lt (h.allocated ptr hp)
  case complete =>
    intro ptr hp
    rw [Repliers.getNextReplierIdx_boxes] at hp
    obtain hlt | rfl := Nat.lt_succ_iff_lt_or_eq.mp (by simpa [Repliers.leak] using hp)
    · exact .inl ((h.complete ptr hlt).resolve_right (by simp [ha]))
    · exact .inr ⟨_, rfl⟩
  case taken => exact h.taken
  case nodup => exact Repliers.nodup_getNextReplierIdx h.nodup
  case adding =>
    intro idx ptr he
    cases he
    refine ⟨Repliers.getNextReplierIdx_empty _, fun hm => Nat.lt_irrefl _ (h.allocated _ hm), ?_, ?_⟩
    · simp [Repliers.Live, Repliers.leak, Repliers.read, Repliers.getNextReplierIdx_boxes]
    · simp [Repliers.leak, Repliers.getNextReplierIdx_boxes]
  case length =>
    have hcleaned : ∀ ptr, some ptr ∈ (s.repliers.leak reply).1.cleanupDeadRepliers.table →
        ptr ∈ s.added ∧ s.repliers.Live ptr := by
      intro ptr hp
      obtain ⟨hm, hl⟩ := Repliers.mem_cleanup.mp hp
      have hadded := h.stored ptr hm
      rw [Repliers.Live, hread ptr hadded] at hl
      exact ⟨hadded, hl⟩
    have hlength : (s.repliers.leak reply).1.cleanupDeadRepliers.table.length =
        s.repliers.table.length := by simp [Repliers.cleanupDeadRepliers, Repliers.leak]
    simp only [Repliers.getNextReplierIdx]
    split
    · exact Nat.le_trans (hlength ▸ h.length) (Nat.le_max_left _ _)
    · rename_i hfull
      have hsome := List.findIdx?_eq_none_iff.mp hfull
      have hnodup : (s.repliers.leak reply).1.cleanupDeadRepliers.table.reduceOption.Nodup :=
        Repliers.nodup_cleanup h.nodup
      have hle := h.full_length (fun slot hs => by simpa using hsome slot hs) hnodup hcleaned
      apply Nat.le_trans _ (Nat.le_max_right _ _)
      simpa [unanswered] using hle

theorem Inv.step (h : s.Inv) (hs : s.step a = some s') : s'.Inv := by
  obtain ⟨t, ht, rfl⟩ := Option.map_eq_some_iff.mp hs
  have hpeak : t.Inv → t.peak = s.peak → Inv { t with peak := max s.peak t.unanswered } :=
    fun ht hp => { ht with length := Nat.le_trans ht.length (hp ▸ Nat.le_max_left _ _) }
  cases a with
  | next reply =>
    cases ha : s.adding with
    | some p => simp [move, ha] at ht
    | none => exact h.next ha reply ht
  | add =>
    simp only [move] at ht
    split at ht
    · cases ht
      exact hpeak (h.add ‹_›) rfl
    · cases ht
  | take ptr =>
    obtain ⟨hp, ht⟩ := Option.ite_none_right_eq_some.mp ht
    cases ht
    exact hpeak (h.take hp) rfl
  | cleanup =>
    cases ht
    exact hpeak h.cleanup rfl

theorem inv_run (h : (machine R).Run as s) : s.Inv :=
  h.invariant inv_init fun hi hs => hi.step hs

theorem eq_of_nodup {table : List (Option Nat)} (h : table.reduceOption.Nodup) {i j ptr : Nat}
    (hi : table[i]? = some (some ptr)) (hj : table[j]? = some (some ptr)) : i = j := by
  induction table generalizing i j with
  | nil => simp at hi
  | cons slot table ih =>
    have htail : table.reduceOption.Nodup := by
      cases slot with
      | none => simpa using h
      | some q => exact (List.nodup_cons.mp (by simpa using h)).2
    have hhead : slot = some ptr → ∀ k : Nat, table[k]? ≠ some (some ptr) := by
      rintro rfl k hk
      have hnot := (List.nodup_cons.mp (by simpa using h)).1
      exact hnot (List.reduceOption_mem_iff.mpr (List.mem_of_getElem? hk))
    cases i with
    | zero =>
      cases j with
      | zero => rfl
      | succ j => exact absurd hj (hhead (by simpa using hi) j)
    | succ i =>
      cases j with
      | zero => exact absurd hi (hhead (by simpa using hj) i)
      | succ j => exact congrArg _ (ih htail (by simpa using hi) (by simpa using hj))

theorem sound_of_run (h : (machine R).Run as s) : s.Sound := by
  have hinv := inv_run h
  constructor
  case slot => exact fun idx ptr ha => (hinv.adding idx ptr ha).1
  case nodup => exact fun i j ptr => eq_of_nodup hinv.nodup
  case stored =>
    intro ptr
    constructor
    · intro ⟨hm, hl⟩
      have hadded := hinv.stored ptr hm
      exact ⟨hadded, (hinv.live ptr hadded).mp hl⟩
    · intro ⟨hadded, ht⟩
      exact ⟨hinv.kept ptr hadded ht, (hinv.live ptr hadded).mpr ht⟩
  case length => exact hinv.length

theorem sound_of_reuse : ∃ s : Registry String,
    (machine String).Run [.next "a", .add, .next "b", .take 0, .add, .next "c", .add] s ∧
      s.repliers.table = [some 2, some 1] ∧ s.Sound := by
  have hrun : (machine String).Run
    [.next "a", .add, .next "b", .take 0, .add, .next "c", .add] _ := rfl
  exact ⟨_, hrun, rfl, sound_of_run hrun⟩

end Registry

namespace Worker

variable {w w' : Worker} {a : WorkerAct} {o : WorkerOut}

theorem closed_of_step (hs : Step w a w' o) (hc : w.phase = .closed) : w'.phase = .closed := by
  have hjs : w.inJs ≠ true := fun js => phase_ne_closed_of_inJs js hc
  cases hs with
  | push | monitorLeave | monitorSend | monitorSendFailed | monitorDone => exact hc
  | newPromise js | fulfil js | reject js | callFetch js | job js => exact absurd js hjs
  | pollPending => exact hc
  | resume drained hr => cases hr <;> simp_all
  | terminate flag hr => cases hr <;> simp_all [discardJobs]
  | ret phase => simp [phase] at hc
  | retTerminated phase => simp [phase] at hc
  | close | cancel | cancelClosing | unmonitored => rfl
  | @pollReady future polled closing phase => cases closing <;> simp_all
  | _ => simp_all

inductive Uses (r : Repliers Nat) : Repliers Nat → Prop
  | same : Uses r r
  | register (reply : Nat) : Uses r (r.register reply).1
  | take {ptr : Nat} (live : r.Live ptr) : Uses r (r.take ptr).1
  | cleanup : Uses r r.cleanupDeadRepliers

theorem uses_of_resumed (h : Resumed w w' o) : Uses w.repliers w'.repliers := by
  cases h with
  | halt | call | skip => exact .cleanup
  | drained | polled => exact .same

theorem uses_of_returned {reply : Nat} {result : CallResult} (h : Returned w reply result w' o) :
    Uses w.repliers w'.repliers := by
  cases h with
  | value => exact .same
  | chained | notRegistered | noFunction => exact .register _

theorem uses_of_step (h : w.Linked) (hs : Step w a w' o) (hc : w'.phase ≠ .closed) :
    Uses w.repliers w'.repliers := by
  cases hs with
  | job js head =>
    exact .take (h.live_of_job (phase_ne_closed_of_inJs js) (by simp [head]))
  | resume drained hr => exact uses_of_resumed hr
  | terminate flag hr =>
    have hu := uses_of_resumed hr
    exact hu
  | ret phase drained hr => exact uses_of_returned hr
  | retTerminated phase flag hr =>
    have hu := uses_of_returned hr
    exact hu
  | close | cancelClosing => exact absurd rfl hc
  | _ => exact .same

end Worker

namespace Registry

variable {s : Registry Nat} {as : List (RegistryAct Nat)} {r : Repliers Nat}

theorem exec_uses (h : s.Inv) (ha : s.adding = none) (hu : Worker.Uses s.repliers r) :
    ∃ bs t, (machine Nat).exec s bs = some t ∧ t.adding = none ∧ t.repliers = r := by
  cases hu with
  | same => exact ⟨[], s, rfl, ha, rfl⟩
  | register reply =>
    refine ⟨[.next reply, .add], ?_⟩
    simp [machine, step, move, ha, Repliers.register]
  | @take ptr live =>
    have hlt : ptr < s.repliers.boxes.length := Nat.lt_of_not_le fun hle => by
      simp [Repliers.Live, Repliers.read_of_le hle] at live
    have hadded := (h.complete ptr hlt).resolve_right (by simp [ha])
    refine ⟨[.take ptr], ?_⟩
    simp [machine, step, move, ha, hadded]
  | cleanup =>
    refine ⟨[.cleanup], ?_⟩
    simp [machine, step, move, ha]

theorem of_worker {task : WorkerTask} {w : Worker} {as : List WorkerAct}
    (h : (Worker.machine task).Run as w) (hc : w.phase ≠ .closed) :
    ∃ bs s, (machine Nat).Run bs s ∧ s.adding = none ∧ s.repliers = w.repliers := by
  refine h.induction (P := fun _ w => w.phase ≠ .closed →
    ∃ bs s, (machine Nat).Run bs s ∧ s.adding = none ∧ s.repliers = w.repliers) ?_ ?_ hc
  · exact fun _ => ⟨[], {}, rfl, rfl, rfl⟩
  · intro as w a w' hrun ih hs hc
    obtain ⟨o, hstep⟩ := Worker.machine_sound hs
    obtain ⟨bs, s, hbs, ha, hr⟩ := ih fun hp => hc (Worker.closed_of_step hstep hp)
    have hu := Worker.uses_of_step (Worker.linked_run hrun) hstep hc
    obtain ⟨cs, t, hexec, ht⟩ := exec_uses (inv_run hbs) ha (hr ▸ hu)
    exact ⟨bs ++ cs, t, Machine.run_append_iff.mpr ⟨s, hbs, hexec⟩, ht⟩

end Registry

end Serverlessd
