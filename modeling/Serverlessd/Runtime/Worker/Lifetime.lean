import Mathlib.Data.Multiset.Range
import Serverlessd.Lib.Counted
import Serverlessd.Lib.Machine

/-! Who has a handle of the `WorkerState`, from `create_injected` to the end of `close_state`,
in a task that is not dropped. -/

namespace Serverlessd

/-- The variables of the task, and the `state` and `state2` of callbacks and futures.  The
`state` of `close_state` is the former `state_handle`. -/
inductive Handle
  | slf
  | item
  | state
  | stateHandle
  | state2
  | callback (depth : Nat)
  | future (id : Nat)
  deriving DecidableEq

inductive TaskPoint
  | registering
  | unmonitored
  | allocated
  | cloned
  | injected
  | running
  | returned
  | opened
  | waiting
  | waited
  | freed
  | done
  deriving DecidableEq

inductive Callback
  | replier
  | fetch (spawned : Bool)
  deriving DecidableEq

/-- Who has the thread.  The future in `leaving` has come to its end, but its token is still
in the tracker. -/
inductive Runner
  | task
  | future (id : Nat)
  | leaving
  deriving DecidableEq

structure TaskTracker where
  closed : Bool := false
  tasks : Nat := 0

structure Lifetime where
  point : TaskPoint := .registering
  thread : Option Runner := none
  arc : Counted Handle := {}
  callbacks : List Callback := []
  futures : Multiset Nat := 0
  spawned : Nat := 0
  tracker : TaskTracker := {}

inductive LifetimeAct
  | unmonitored
  | allocate
  | cloneItem
  | inject
  | keep
  | park
  | wake
  | enter (fetch : Bool)
  | spawn
  | leave
  | poll (id : Nat)
  | finish
  | untrack
  | ret
  | openSlot
  | closeTracker
  | wait
  | dropIsolate
  | dropState

namespace Lifetime

def getFromIsolate (arc : Counted Handle) (i : Handle) : Counted Handle :=
  arc.incrementStrongCount.fromRaw i

def openFromIsolate (arc : Counted Handle) (i : Handle) : Counted Handle := arc.fromRaw i

def inJs (s : Lifetime) : Bool :=
  match s.thread, s.callbacks.head? with
  | _, some (.fetch true) => false
  | some .task, _ => decide (s.point = .running)
  | some (.future _), _ => true
  | _, _ => false

def onTask (s : Lifetime) : Bool :=
  decide (s.point = .running ∧ s.thread = some .task ∧ s.callbacks = [])

def step (s : Lifetime) : LifetimeAct → Option Lifetime
  | .unmonitored => if s.point = .registering then some { s with point := .unmonitored } else none
  | .allocate =>
    if s.point = .registering then
      some { s with point := .allocated, thread := some .task, arc := .new .slf }
    else none
  | .cloneItem =>
    if s.point = .allocated then some { s with point := .cloned, arc := s.arc.clone .item } else none
  | .inject =>
    if s.point = .cloned then some { s with point := .injected, arc := s.arc.intoRaw .slf } else none
  | .keep =>
    if s.point = .injected then
      some { s with point := .running, arc := (s.arc.move .item .state).clone .stateHandle }
    else none
  | .park => if s.onTask then some { s with thread := none } else none
  | .wake =>
    if s.point = .running ∧ s.thread = none then some { s with thread := some .task } else none
  | .enter fetch =>
    if s.inJs then
      some { s with
        callbacks := (if fetch then .fetch false else .replier) :: s.callbacks
        arc := getFromIsolate s.arc (.callback s.callbacks.length) }
    else none
  | .spawn =>
    match s.callbacks with
    | .fetch false :: rest =>
      some { s with
        callbacks := .fetch true :: rest
        arc := s.arc.clone (.future s.spawned)
        futures := s.spawned ::ₘ s.futures
        spawned := s.spawned + 1
        tracker := { s.tracker with tasks := s.tracker.tasks + 1 } }
    | _ => none
  | .leave =>
    match s.callbacks with
    | _ :: rest => some { s with callbacks := rest, arc := s.arc.drop (.callback rest.length) }
    | [] => none
  -- a poll that is pending only ticks
  | .poll id =>
    if s.thread = none ∧ id ∈ s.futures then some { s with thread := some (.future id) } else none
  | .finish =>
    match s.thread, s.callbacks with
    | some (.future id), [] =>
      some { s with
        thread := some .leaving, futures := s.futures.erase id, arc := s.arc.drop (.future id) }
    | _, _ => none
  | .untrack =>
    if s.thread = some .leaving then
      some { s with thread := none, tracker := { s.tracker with tasks := s.tracker.tasks - 1 } }
    else none
  | .ret => if s.onTask then some { s with point := .returned, arc := s.arc.drop .state } else none
  | .openSlot =>
    if s.point = .returned then
      some { s with point := .opened, arc := openFromIsolate s.arc .state2 }
    else none
  | .closeTracker =>
    if s.point = .opened then
      some { s with point := .waiting, thread := none, tracker := { s.tracker with closed := true } }
    else none
  | .wait =>
    if s.point = .waiting ∧ s.thread = none ∧ s.tracker.closed ∧ s.tracker.tasks = 0 then
      some { s with point := .waited, thread := some .task, arc := s.arc.drop .state2 }
    else none
  | .dropIsolate => if s.point = .waited then some { s with point := .freed } else none
  | .dropState =>
    if s.point = .freed then
      some { s with point := .done, thread := none, arc := s.arc.drop .stateHandle }
    else none

def machine : Machine Lifetime LifetimeAct := ⟨{}, step⟩

end Lifetime

def TaskPoint.handles : TaskPoint → Multiset Handle
  | .registering | .unmonitored | .done => 0
  | .allocated => {.slf}
  | .cloned => {.item, .slf}
  | .injected => {.item}
  | .running => {.stateHandle, .state}
  | .returned | .waited | .freed => {.stateHandle}
  | .opened | .waiting => {.state2, .stateHandle}

def TaskPoint.stored : TaskPoint → Nat
  | .injected | .running | .returned => 1
  | _ => 0

namespace Lifetime

def borrowed (s : Lifetime) : Multiset Handle :=
  (Multiset.range s.callbacks.length).map .callback + s.futures.map .future

def handles (s : Lifetime) : Multiset Handle := s.point.handles + s.borrowed

variable {s s' : Lifetime} {a : LifetimeAct} {as : List LifetimeAct}

inductive Step : Lifetime → LifetimeAct → Lifetime → Prop
  | unmonitored {s : Lifetime} (point : s.point = .registering) :
      Step s .unmonitored { s with point := .unmonitored }
  | allocate {s : Lifetime} (point : s.point = .registering) :
      Step s .allocate { s with point := .allocated, thread := some .task, arc := .new .slf }
  | cloneItem {s : Lifetime} (point : s.point = .allocated) :
      Step s .cloneItem { s with point := .cloned, arc := s.arc.clone .item }
  | inject {s : Lifetime} (point : s.point = .cloned) :
      Step s .inject { s with point := .injected, arc := s.arc.intoRaw .slf }
  | keep {s : Lifetime} (point : s.point = .injected) :
      Step s .keep { s with
        point := .running, arc := (s.arc.move .item .state).clone .stateHandle }
  | park {s : Lifetime} (task : s.onTask = true) : Step s .park { s with thread := none }
  | wake {s : Lifetime} (point : s.point = .running) (thread : s.thread = none) :
      Step s .wake { s with thread := some .task }
  | enter {s : Lifetime} {fetch : Bool} (js : s.inJs = true) :
      Step s (.enter fetch) { s with
        callbacks := (if fetch then .fetch false else .replier) :: s.callbacks
        arc := getFromIsolate s.arc (.callback s.callbacks.length) }
  | spawn {s : Lifetime} {rest : List Callback} (top : s.callbacks = .fetch false :: rest) :
      Step s .spawn { s with
        callbacks := .fetch true :: rest
        arc := s.arc.clone (.future s.spawned)
        futures := s.spawned ::ₘ s.futures
        spawned := s.spawned + 1
        tracker := { s.tracker with tasks := s.tracker.tasks + 1 } }
  | leave {s : Lifetime} {callback : Callback} {rest : List Callback}
      (top : s.callbacks = callback :: rest) :
      Step s .leave { s with callbacks := rest, arc := s.arc.drop (.callback rest.length) }
  | poll {s : Lifetime} {id : Nat} (thread : s.thread = none) (live : id ∈ s.futures) :
      Step s (.poll id) { s with thread := some (.future id) }
  | finish {s : Lifetime} {id : Nat} (thread : s.thread = some (.future id))
      (callbacks : s.callbacks = []) :
      Step s .finish { s with
        thread := some .leaving, futures := s.futures.erase id, arc := s.arc.drop (.future id) }
  | untrack {s : Lifetime} (thread : s.thread = some .leaving) :
      Step s .untrack { s with
        thread := none, tracker := { s.tracker with tasks := s.tracker.tasks - 1 } }
  | ret {s : Lifetime} (task : s.onTask = true) :
      Step s .ret { s with point := .returned, arc := s.arc.drop .state }
  | openSlot {s : Lifetime} (point : s.point = .returned) :
      Step s .openSlot { s with point := .opened, arc := openFromIsolate s.arc .state2 }
  | closeTracker {s : Lifetime} (point : s.point = .opened) :
      Step s .closeTracker { s with
        point := .waiting, thread := none, tracker := { s.tracker with closed := true } }
  | wait {s : Lifetime} (point : s.point = .waiting) (thread : s.thread = none)
      (closed : s.tracker.closed = true) (tasks : s.tracker.tasks = 0) :
      Step s .wait { s with point := .waited, thread := some .task, arc := s.arc.drop .state2 }
  | dropIsolate {s : Lifetime} (point : s.point = .waited) :
      Step s .dropIsolate { s with point := .freed }
  | dropState {s : Lifetime} (point : s.point = .freed) :
      Step s .dropState { s with point := .done, thread := none, arc := s.arc.drop .stateHandle }

variable {s s' : Lifetime} {a : LifetimeAct} {as : List LifetimeAct}

theorem step_sound (h : s.step a = some s') : Step s a s' := by
  cases a with
  | spawn =>
    simp only [step] at h
    split at h
    · cases h
      exact .spawn ‹_›
    · cases h
  | leave =>
    simp only [step] at h
    split at h
    · cases h
      exact .leave ‹_›
    · cases h
  | finish =>
    simp only [step] at h
    split at h
    · cases h
      exact .finish ‹_› ‹_›
    · cases h
  | wake | poll id =>
    obtain ⟨⟨h₁, h₂⟩, h⟩ := Option.ite_none_right_eq_some.mp h
    cases h
    constructor <;> assumption
  | wait =>
    obtain ⟨⟨hp, ht, hc, hn⟩, h⟩ := Option.ite_none_right_eq_some.mp h
    cases h
    exact .wait hp ht hc hn
  | unmonitored | allocate | cloneItem | inject | keep | park | enter fetch | untrack | ret
  | openSlot | closeTracker | dropIsolate | dropState =>
    obtain ⟨hg, h⟩ := Option.ite_none_right_eq_some.mp h
    cases h
    constructor
    exact hg

structure Tracked (s : Lifetime) : Prop where
  tasks : s.tracker.tasks = s.futures.card + if s.thread = some .leaving then 1 else 0
  callbacks : s.callbacks ≠ [] → s.thread = some .task ∧ s.point = .running ∨
    ∃ id, s.thread = some (.future id)
  current : ∀ id, s.thread = some (.future id) → id ∈ s.futures
  closed : s.point = .waiting → s.tracker.closed = true
  point : match s.point with
    | .running => True
    | .waiting => s.thread ≠ some .task
    | .returned | .opened => s.thread = some .task
    | .allocated | .cloned | .injected | .waited | .freed => s.thread = some .task ∧ s.futures = 0
    | .registering | .unmonitored | .done => s.thread = none ∧ s.futures = 0

theorem Tracked.no_callbacks (h : s.Tracked) (hp : s.thread = some .task → s.point ≠ .running)
    (ht : ∀ id, s.thread ≠ some (.future id)) : s.callbacks = [] := by
  by_contra hc
  obtain ⟨ht', hp'⟩ | ⟨id, ht'⟩ := h.callbacks hc
  · exact hp ht' hp'
  · exact ht id ht'

theorem Tracked.working (h : s.Tracked) (ht : s.thread ≠ some .task)
    (hf : s.thread ≠ none ∨ s.futures ≠ 0) : s.point = .running ∨ s.point = .waiting := by
  have hpoint := h.point
  split at hpoint <;> simp_all

theorem Tracked.turn (h : s.Tracked) (ht : s.thread ≠ some .task)
    (hf : s.thread ≠ none ∨ s.futures ≠ 0) (hp : s'.point = s.point)
    (hc : s'.callbacks = []) (ht' : s'.thread ≠ some .task)
    (hcurrent : ∀ id, s'.thread = some (.future id) → id ∈ s'.futures)
    (htasks : s'.tracker.tasks = s'.futures.card + if s'.thread = some .leaving then 1 else 0)
    (hclosed : s'.tracker.closed = s.tracker.closed) : s'.Tracked := by
  refine ⟨htasks, fun hne => absurd hc hne, hcurrent, fun hw => hclosed ▸ h.closed (hp ▸ hw), ?_⟩
  rw [hp]
  obtain hw | hw := h.working ht hf
  · simp [hw]
  · simp [hw, ht']

theorem Tracked.step (h : s.Tracked) (hs : Step s a s') : s'.Tracked := by
  have ⟨htasks, hcalls, hcurrent, hclosed, hpoint⟩ := h
  cases hs with
  | unmonitored point | allocate point | cloneItem point | inject point | keep point
  | openSlot point | closeTracker point | dropIsolate point | dropState point | wake point =>
    simp only [point] at hpoint
    constructor <;> simp_all
  | park task | ret task =>
    obtain ⟨point, thread, calls⟩ := of_decide_eq_true task
    constructor <;> simp_all
  | enter js =>
    refine ⟨htasks, fun _ => ?_, hcurrent, hclosed, hpoint⟩
    unfold inJs at js
    split at js <;> simp_all
  | spawn top =>
    have hjs := hcalls (by simp [top])
    refine ⟨?_, fun _ => hjs, fun id ht => Multiset.mem_cons_of_mem (hcurrent id ht), hclosed, ?_⟩
    · simp only [htasks, Multiset.card_cons]
      omega
    · dsimp only
      split at hpoint <;> simp_all
  | leave top =>
    have hjs := hcalls (by simp [top])
    exact ⟨htasks, fun _ => hjs, hcurrent, hclosed, hpoint⟩
  | poll thread live =>
    have hf : s.futures ≠ 0 := fun hz => by simp [hz] at live
    have hc := h.no_callbacks (by simp [thread]) (by simp [thread])
    refine h.turn (by simp [thread]) (.inr hf) rfl hc (by simp) ?_ (by simpa [thread] using htasks) rfl
    intro id ht
    cases ht
    exact live
  | finish thread callbacks =>
    have hlive := hcurrent _ thread
    refine h.turn (by simp [thread]) (.inl (by simp [thread])) rfl callbacks (by simp) (by simp) ?_ rfl
    simpa [thread, Multiset.card_erase_add_one hlive] using htasks
  | untrack thread =>
    have hc := h.no_callbacks (by simp [thread]) (by simp [thread])
    refine h.turn (by simp [thread]) (.inl (by simp [thread])) rfl hc (by simp) (by simp) ?_ rfl
    simp [htasks, thread]
  | wait point thread closed tasks =>
    have hf : s.futures = 0 := by
      rw [tasks] at htasks
      exact Multiset.card_eq_zero.mp (Nat.eq_zero_of_add_eq_zero_right htasks.symm)
    have hc := h.no_callbacks (by simp [thread]) (by simp [thread])
    exact ⟨by simp [tasks, hf], fun hne => absurd hc hne, by simp, by simp, rfl, hf⟩

def Owns (s : Lifetime) : Prop :=
  s.arc = .of s.handles s.point.stored (if s.point = .done then 1 else 0)

theorem borrowed_of_none (hc : s.callbacks = []) (hf : s.futures = 0) : s.borrowed = 0 := by
  simp [borrowed, hc, hf]

theorem Tracked.handles_ne_zero (h : s.Tracked)
    (hu : s.callbacks ≠ [] ∨ s.futures ≠ 0 ∨ s.inJs = true) : s.point.handles ≠ 0 := by
  have hpoint := h.point
  have hnone : s.thread = none → s.futures = 0 → False := by
    intro hn hf
    have hc := h.no_callbacks (by simp [hn]) (by simp [hn])
    simp [hc, hf, inJs, hn] at hu
  cases hp : s.point with
  | registering | unmonitored | done =>
    rw [hp] at hpoint
    exact absurd hpoint.2 (hnone hpoint.1)
  | allocated | cloned | injected | running | returned | opened | waiting | waited | freed =>
    simp [TaskPoint.handles]

theorem Tracked.add_ne_zero (h : s.Tracked)
    (hu : s.callbacks ≠ [] ∨ s.futures ≠ 0 ∨ s.inJs = true) (others : Multiset Handle) :
    s.point.handles + others ≠ 0 := fun hz =>
  h.handles_ne_zero hu (Multiset.le_zero.mp (hz ▸ Multiset.le_add_right _ _))

theorem Owns.step (h : s.Owns) (ht : s.Tracked) (hs : Step s a s') : s'.Owns := by
  have hpoint := ht.point
  unfold Owns handles at h ⊢
  cases hs with
  | unmonitored point | dropIsolate point =>
    simp only [point] at h
    exact h
  | park | wake | poll | untrack => exact h
  | allocate point =>
    simp only [point] at hpoint
    have hc := ht.no_callbacks (by simp [point]) (by simp [hpoint])
    simp [borrowed, TaskPoint.handles, TaskPoint.stored, hc, hpoint]
  | cloneItem point | keep point =>
    simp [h, point, TaskPoint.handles, TaskPoint.stored, borrowed]
  | openSlot point =>
    simp [h, point, openFromIsolate, TaskPoint.handles, TaskPoint.stored, borrowed]
  | inject point =>
    simp [h, point, TaskPoint.handles, TaskPoint.stored, borrowed,
      Multiset.cons_swap Handle.item Handle.slf]
  | ret task =>
    obtain ⟨point, thread, calls⟩ := of_decide_eq_true task
    simp [h, point, TaskPoint.handles, TaskPoint.stored, borrowed,
      Multiset.cons_swap Handle.stateHandle Handle.state, Counted.drop_of_ne_zero]
  | closeTracker point =>
    simpa [point, TaskPoint.handles, TaskPoint.stored, borrowed] using h
  | wait point thread closed tasks =>
    simp [h, point, TaskPoint.handles, TaskPoint.stored, borrowed, Counted.drop_of_ne_zero]
  | dropState point =>
    simp only [point] at hpoint
    have hc := ht.no_callbacks (by simp [point]) (by simp [hpoint])
    simp [h, point, TaskPoint.handles, TaskPoint.stored, borrowed, hc, hpoint,
      Counted.drop_of_singleton]
  | enter js =>
    have hne := ht.add_ne_zero (.inr (.inr js)) s.borrowed
    rw [h, getFromIsolate, Counted.incrementStrongCount_of
      (Nat.add_pos_right _ (Multiset.card_pos.mpr hne)), Counted.fromRaw_of]
    simp [borrowed, Multiset.range_succ]
  | spawn top =>
    rw [h, Counted.clone_of]
    simp [borrowed, top]
  | @leave callback rest top =>
    have hne := ht.add_ne_zero (.inl (by simp [top]))
    simp [h, borrowed, top, Multiset.range_succ, Counted.drop_of_ne_zero (hne _)]
  | @finish id thread callbacks =>
    obtain ⟨rest, hrest⟩ := Multiset.exists_cons_of_mem (ht.current id thread)
    have hne := ht.add_ne_zero (.inr (.inl (by simp [hrest])))
    simp [h, borrowed, hrest, Counted.drop_of_ne_zero (hne _)]

theorem tracked_run (h : machine.Run as s) : s.Tracked := by
  refine h.invariant ?_ fun hi hs => hi.step (step_sound hs)
  exact ⟨rfl, by simp [machine], by simp [machine], by simp [machine], rfl, rfl⟩

theorem owns_run (h : machine.Run as s) : s.Owns := by
  refine h.induction (P := fun _ s => s.Owns) rfl fun hr hi hs => ?_
  exact hi.step (tracked_run hr) (step_sound hs)

/-- The state is counted as it is held, and dropped once, after everything that can use it. -/
structure Exact (s : Lifetime) : Prop where
  defined : s.arc.undefined = false
  owners : s.arc.owners = s.handles
  count : s.arc.strong = s.point.stored + s.handles.card
  used : s.callbacks ≠ [] ∨ s.futures ≠ 0 ∨ s.inJs = true → 0 < s.arc.strong
  isolate : s.point = .waited ∨ s.point = .freed ∨ s.point = .done →
    s.futures = 0 ∧ s.callbacks = []
  drops : s.arc.drops = if s.point = .done then 1 else 0
  released : s.point = .done → s.arc.strong = 0

theorem exact_of_run (h : machine.Run as s) : s.Exact := by
  have ht := tracked_run h
  have howns := owns_run h
  have hpoint := ht.point
  have hended : s.point = .waited ∨ s.point = .freed ∨ s.point = .done →
      s.futures = 0 ∧ s.callbacks = [] := by
    intro hp
    refine ⟨?_, ht.no_callbacks ?_ ?_⟩ <;> obtain hp | hp | hp := hp <;> simp_all
  refine ⟨by simp [show s.arc = _ from howns], by rw [howns]; rfl, by rw [howns]; rfl, fun hu => ?_,
    hended, by rw [howns]; rfl, fun hp => ?_⟩
  · rw [howns, Counted.of_strong]
    exact Nat.add_pos_right _ (Multiset.card_pos.mpr (ht.add_ne_zero hu _))
  · obtain ⟨hf, hc⟩ := hended (.inr (.inr hp))
    rw [howns]
    simp [handles, borrowed_of_none hc hf, hp, TaskPoint.handles, TaskPoint.stored]

def nestedRun : List LifetimeAct :=
  [.allocate, .cloneItem, .inject, .keep, .enter true, .spawn, .leave, .ret, .openSlot, .closeTracker,
    .poll 0, .enter false, .enter true, .spawn, .leave, .leave, .finish, .untrack, .poll 1, .finish,
    .untrack, .wait, .dropIsolate, .dropState]

theorem exact_of_nestedRun : ∃ s, machine.Run nestedRun s ∧ s.point = .done ∧ s.Exact := by
  have hrun : machine.Run nestedRun _ := rfl
  exact ⟨_, hrun, rfl, exact_of_run hrun⟩

end Lifetime

end Serverlessd
