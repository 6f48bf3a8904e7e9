import Serverlessd.Runtime.Pod.LocalSet
import Serverlessd.Runtime.Serverless.Admission
import Serverlessd.Runtime.Serverless.Owed

/-! The tasks of the runtime on their threads: the one of each pod, on which `pod_task` and
its workers take turns, and the one of the pod's monitor. -/

namespace Serverlessd

/-- `running` is the worker that has the pod's thread.  `queue` holds the workers whose `Spawn`
waits for `monitor_task`, and `monitored` those with a `monitor_worker_task`. -/
structure PodThread where
  running : Option Nat := none
  queue : List Nat := []
  monitored : List Nat := []
  monitoring : Bool := true
  deriving DecidableEq

def PodThread.localSet (t : PodThread) (pod : PodTask) : LocalSet := { pod, running := t.running }

section LocalSet

variable {t : PodThread} {p : PodTask}

@[simp] theorem PodThread.localSet_pod : (t.localSet p).pod = p := rfl
@[simp] theorem PodThread.localSet_running : (t.localSet p).running = t.running := rfl

end LocalSet

structure System where
  runtime : Runtime
  threads : List PodThread

inductive SystemAct
  | runtime (a : RuntimeAct)
  | startMonitoring (idx worker : Nat)
  | monitorRecv (idx : Nat)
  | monitorHangup (idx : Nat)

def monitorCapacity : Nat := 1

/-- `start_monitoring` gives its `Monitoring` when `monitor_task` has spawned the worker's
monitor, and `None` when that task has ended; the monitors end with it. -/
def PodThread.allows (t : PodThread) : PodAct → Bool
  | .worker worker (.init _) => t.monitored.contains worker
  | .worker worker .unmonitored => !t.monitoring && !t.monitored.contains worker
  | .worker worker a => !a.monitors || t.monitoring && t.monitored.contains worker
  | _ => true

theorem Runtime.step_pod {s s' : Runtime} {idx : Nat} {a : PodAct} {p : PodTask}
    (get : s.pods[idx]? = some p) (h : s.step (.pod idx a) = some s') :
    ∃ p' o, p.step a = some (p', o) ∧ s' = (s.setPod idx p').emit idx o := by
  simp only [step, get] at h
  split at h
  · obtain ⟨-, h⟩ := Option.ite_none_right_eq_some.mp h
    obtain ⟨⟨p', o⟩, hs, rfl⟩ := Option.map_eq_some_iff.mp h
    cases ‹some p = _›
    exact ⟨p', o, hs, rfl⟩
  · cases ‹some p = _›
    obtain ⟨⟨p', o⟩, hs, rfl⟩ := Option.map_eq_some_iff.mp h
    exact ⟨p', o, hs, rfl⟩
  · cases ‹some p = _›

theorem Runtime.pod_of_step {s s' : Runtime} {a : RuntimeAct} (hs : Runtime.Step s a s')
    (ha : ∀ idx b, a ≠ .pod idx b) {idx : Nat} {p : PodTask} (hp : s'.pods[idx]? = some p) :
    s.pods[idx]? = some p ∨ ∃ q trigger, s.pods[idx]? = some q ∧ q.rxOpen = true ∧
      p = { q with queue := q.queue ++ [trigger] } := by
  cases hs with
  | recv phase head hh => cases hh <;> exact .inl hp
  | sent sends get rx =>
    obtain ⟨rfl, rfl⟩ | ⟨-, hp⟩ := List.getElem?_set_cases hp
    · exact .inr ⟨_, _, get, rx, rfl⟩
    · exact .inl hp
  | failed => exact .inl (by simpa using hp)
  | pod => exact absurd rfl (ha _ _)
  | _ => exact .inl hp

theorem LocalSet.step_pod {s s' : LocalSet} {a : PodAct} (h : s.step (.pod a) = some s') :
    ∃ o, s.pod.step a = some (s'.pod, o) := by
  have hmap : ∀ {t : LocalSet}, (s.pod.step a).map (fun next => { s with pod := next.1 }) = some t →
      ∃ o, s.pod.step a = some (t.pod, o) := by
    intro t ht
    obtain ⟨⟨p, o⟩, hs, rfl⟩ := Option.map_eq_some_iff.mp ht
    exact ⟨o, hs⟩
  cases a with
  | worker worker b =>
    simp only [step] at h
    split at h
    · exact hmap h
    · obtain ⟨-, h⟩ := Option.ite_none_right_eq_some.mp h
      unfold work at h
      split at h
      · rename_i w p o hw hs
        cases h
        exact ⟨o, hs⟩
      · cases h
  | recv | send | token | hangup => exact hmap (Option.ite_none_right_eq_some.mp h).2

namespace System

def start (c : Config) : System where
  runtime := .start c
  threads := List.replicate c.nThreads {}

def stepPod (s : System) (idx : Nat) (a : PodAct) : Option System :=
  match s.threads[idx]?, s.runtime.pods[idx]? with
  | some t, some pod =>
    if t.allows a then
      match (t.localSet pod).step (.pod a), s.runtime.step (.pod idx a) with
      | some next, some runtime =>
        some { runtime, threads := s.threads.set idx { t with running := next.running } }
      | _, _ => none
    else none
  | _, _ => none

def startMonitoring (s : System) (idx worker : Nat) : Option System :=
  match s.threads[idx]?, s.runtime.pods[idx]? with
  | some t, some pod =>
    if pod.rxOpen ∧ t.running = none ∧ (pod.tasks[worker]?).any (fun w => w.phase = .starting) ∧
        worker ∉ t.queue ∧ worker ∉ t.monitored ∧
        t.monitoring ∧ t.queue.length < monitorCapacity then
      some { s with threads := s.threads.set idx { t with queue := t.queue ++ [worker] } }
    else none
  | _, _ => none

def monitorRecv (s : System) (idx : Nat) : Option System :=
  match s.threads[idx]? with
  | some t =>
    match t.monitoring, t.queue with
    | true, worker :: queue =>
      let t := { t with queue, monitored := t.monitored ++ [worker] }
      some { s with threads := s.threads.set idx t }
    | _, _ => none
  | none => none

def monitorHangup (s : System) (idx : Nat) : Option System :=
  match s.threads[idx]?, s.runtime.pods[idx]? with
  | some t, some pod =>
    if t.monitoring ∧ t.queue = [] ∧ pod.rxOpen = false ∧ ∀ w ∈ pod.tasks, w.phase ≠ .starting then
      some { s with threads := s.threads.set idx { t with monitoring := false } }
    else none
  | _, _ => none

def step (s : System) : SystemAct → Option System
  | .runtime (.pod idx a) => s.stepPod idx a
  | .runtime a => (s.runtime.step a).map fun runtime => { s with runtime }
  | .startMonitoring idx worker => s.startMonitoring idx worker
  | .monitorRecv idx => s.monitorRecv idx
  | .monitorHangup idx => s.monitorHangup idx

def machine (c : Config) : Machine System SystemAct := ⟨start c, step⟩

inductive Step (s : System) : SystemAct → System → Prop
  | pod {idx : Nat} {b : PodAct} {t : PodThread} {p : PodTask} {l : LocalSet} {r : Runtime}
      {o : PodOut} (thread : s.threads[idx]? = some t) (get : s.runtime.pods[idx]? = some p)
      (turn : LocalSet.Step (t.localSet p) (.pod b) l)
      (moved : s.runtime.step (.pod idx b) = some r)
      (eq : r = (s.runtime.setPod idx l.pod).emit idx o) :
      Step s (.runtime (.pod idx b))
        { runtime := r, threads := s.threads.set idx { t with running := l.running } }
  | runtime {b : RuntimeAct} {r : Runtime} (hb : ∀ idx c, b ≠ .pod idx c)
      (moved : s.runtime.step b = some r) : Step s (.runtime b) { s with runtime := r }
  | thread {a : SystemAct} {idx : Nat} {t t' : PodThread} (thread : s.threads[idx]? = some t)
      (running : t'.running = t.running) (ha : ∀ b, a ≠ .runtime b) :
      Step s a { s with threads := s.threads.set idx t' }

variable {s s' : System} {a : SystemAct} {as : List SystemAct} {c : Config}

theorem stepPod_sound {idx : Nat} {b : PodAct} (h : s.stepPod idx b = some s') :
    Step s (.runtime (.pod idx b)) s' := by
  unfold stepPod at h
  split at h
  · rename_i t p ht hp
    obtain ⟨-, h⟩ := Option.ite_none_right_eq_some.mp h
    split at h
    · rename_i l r hl hr
      cases h
      obtain ⟨p', o, hstep, rfl⟩ := Runtime.step_pod hp hr
      obtain ⟨o', hpod⟩ := LocalSet.step_pod hl
      obtain ⟨rfl, rfl⟩ := Prod.mk.inj (Option.some.inj (hstep.symm.trans hpod))
      exact .pod ht hp (LocalSet.step_sound hl) hr rfl
    · cases h
  · cases h

theorem step_runtime {b : RuntimeAct} (hb : ∀ idx c, b ≠ .pod idx c) :
    s.step (.runtime b) = (s.runtime.step b).map fun runtime => { s with runtime } := by
  cases b with
  | pod idx c => exact absurd rfl (hb idx c)
  | _ => rfl

theorem step_sound (h : s.step a = some s') : Step s a s' := by
  cases a with
  | runtime b =>
    by_cases hb : ∃ idx c, b = .pod idx c
    · obtain ⟨idx, c, rfl⟩ := hb
      exact stepPod_sound h
    · have hb : ∀ idx c, b ≠ .pod idx c := fun idx c hc => hb ⟨idx, c, hc⟩
      rw [step_runtime hb] at h
      obtain ⟨r, hr, rfl⟩ := Option.map_eq_some_iff.mp h
      exact .runtime hb hr
  | startMonitoring idx worker =>
    simp only [step, startMonitoring] at h
    split at h
    · rename_i t p ht hp
      obtain ⟨-, h⟩ := Option.ite_none_right_eq_some.mp h
      cases h
      exact .thread ht rfl (by simp)
    · cases h
  | monitorRecv idx =>
    simp only [step, monitorRecv] at h
    split at h
    · rename_i t ht
      split at h
      · cases h
        exact .thread ht rfl (by simp)
      · cases h
    · cases h
  | monitorHangup idx =>
    simp only [step, monitorHangup] at h
    split at h
    · rename_i t p ht hp
      obtain ⟨-, h⟩ := Option.ite_none_right_eq_some.mp h
      cases h
      exact .thread ht rfl (by simp)
    · cases h

theorem simulates (c : Config) :
    Machine.Simulates (machine c) (Runtime.machine c) fun s r => s.runtime = r where
  init := rfl
  step := by
    rintro s a s' _ rfl hs
    cases step_sound hs with
    | pod _ _ _ moved => exact ⟨[_], _, by simpa [Runtime.machine] using moved, rfl⟩
    | runtime _ moved => exact ⟨[_], _, by simpa [Runtime.machine] using moved, rfl⟩
    | thread => exact ⟨[], _, rfl, rfl⟩

structure Threaded (s : System) : Prop where
  length : s.threads.length = s.runtime.pods.length
  scheduled : ∀ (idx : Nat) (t : PodThread) (p : PodTask), s.threads[idx]? = some t →
    s.runtime.pods[idx]? = some p → (t.localSet p).Scheduled

theorem threaded_start (c : Config) : (start c).Threaded where
  length := by simp [start, Runtime.start]
  scheduled := by
    intro idx t p ht hp
    obtain ⟨-, rfl⟩ : idx < c.nThreads ∧ {} = t := by
      simpa [start, List.getElem?_replicate] using ht
    obtain ⟨-, rfl⟩ : idx < c.nThreads ∧ PodTask.start c.nWorkers = p := by
      simpa [start, Runtime.start, List.getElem?_replicate] using hp
    exact LocalSet.scheduled_init c.nWorkers

theorem Threaded.step (h : s.Threaded) (hs : Step s a s') : s'.Threaded := by
  cases hs with
  | @pod idx b t p l r o thread get turn moved eq =>
    subst eq
    refine ⟨by simpa [Runtime.setPod] using h.length, fun i u q hu hq => ?_⟩
    simp only [Runtime.emit_pods, Runtime.setPod_pods] at hq
    obtain ⟨rfl, rfl⟩ | ⟨hne, hu⟩ := List.getElem?_set_cases hu
    · obtain ⟨-, rfl⟩ | ⟨hne, -⟩ := List.getElem?_set_cases hq
      · exact (h.scheduled i t p thread get).step turn
      · exact absurd rfl hne
    · obtain ⟨rfl, -⟩ | ⟨-, hq⟩ := List.getElem?_set_cases hq
      · exact absurd rfl hne
      · exact h.scheduled i u q hu hq
  | runtime hb moved =>
    have hstep := Runtime.step_sound moved
    refine ⟨h.length.trans (Runtime.pods_length_of_step hstep).symm, fun i u q hu hq => ?_⟩
    obtain hq | ⟨p, trigger, hp, rx, rfl⟩ := Runtime.pod_of_step hstep hb hq
    · exact h.scheduled i u q hu hq
    · have hs := h.scheduled i u p hu hp
      exact hs.step (@LocalSet.Step.send (u.localSet p) trigger rx)
  | thread thread running =>
    refine ⟨by simpa using h.length, fun i u q hu hq => ?_⟩
    obtain ⟨rfl, rfl⟩ | ⟨-, hu⟩ := List.getElem?_set_cases hu
    · rw [PodThread.localSet, running]
      exact h.scheduled _ _ q thread hq
    · exact h.scheduled i u q hu hq

theorem threaded_run (h : (machine c).Run as s) : s.Threaded :=
  h.invariant (threaded_start c) fun hi hs => hi.step (step_sound hs)

end System

end Serverlessd
