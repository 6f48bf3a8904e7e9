import Mathlib.Data.List.Basic

namespace Router

inductive PathPart
  | const (text : String)
  | named (name : String)
  | rest (name : String)

structure PathState where
  segments : List String
  params : List (String × String) := []

inductive Filter (M : Type)
  | path (parts : List PathPart)
  | method (m : M)

end Router

inductive Router (M H : Type)
  | node (filters : List (Router.Filter M)) (hoops : List H) (goal : Option H)
      (routers : List (Router M H))

namespace Router

variable {M H σ : Type}

def new : Router M H := .node [] [] none []

def withPath (parts : List PathPart) : Router M H := .node [.path parts] [] none []

def hoop (h : H) : Router M H → Router M H
  | .node filters hoops goal routers => .node filters (hoops ++ [h]) goal routers

def push : Router M H → Router M H → Router M H
  | .node filters hoops goal routers, child => .node filters hoops goal (routers ++ [child])

def goal (h : H) : Router M H → Router M H
  | .node filters hoops _ routers => .node filters hoops (some h) routers

def method (m : M) (h : H) (r : Router M H) : Router M H :=
  r.push (.node [.method m] [] (some h) [])

def PathPart.detect : PathPart → PathState → Option PathState
  | .const text, ⟨segment :: segments, params⟩ =>
    if segment = text then some ⟨segments, params⟩ else none
  | .named name, ⟨segment :: segments, params⟩ => some ⟨segments, (name, segment) :: params⟩
  | .rest name, ⟨segments, params⟩ => some ⟨[], (name, "/".intercalate segments) :: params⟩
  | .const _, ⟨[], _⟩ | .named _, ⟨[], _⟩ => none

def Filter.detect [DecidableEq M] (m : M) : Filter M → PathState → Option PathState
  | .path parts, s => parts.foldlM (fun s (part : PathPart) => part.detect s) s
  | .method n, s => if m = n then some s else none

section Detect

variable [DecidableEq M]

mutual

/-- The chain of the first goal that matches, depth first.  What a route that fails has
matched is given back. -/
def detect (m : M) : Router M H → PathState → Option (List H × PathState)
  | .node filters hoops goal routers, s =>
    match filters.foldlM (fun s (f : Filter M) => f.detect m s) s with
    | none => none
    | some s =>
      match detectFirst m routers s with
      | some (chain, s) => some (hoops ++ chain, s)
      | none => if s.segments.isEmpty then goal.map fun g => (hoops ++ [g], s) else none

def detectFirst (m : M) : List (Router M H) → PathState → Option (List H × PathState)
  | [], _ => none
  | r :: rs, s =>
    match detect m r s with
    | some found => some found
    | none => detectFirst m rs s

end

mutual

def chains : Router M H → List (List H)
  | .node _ hoops goal routers => (chainsOf routers ++ goal.toList.map ([·])).map (hoops ++ ·)

def chainsOf : List (Router M H) → List (List H)
  | [] => []
  | r :: rs => chains r ++ chainsOf rs

end

variable {m : M}

mutual

theorem mem_chains_of_detect : ∀ {r : Router M H} {s s' : PathState} {chain : List H},
    r.detect m s = some (chain, s') → chain ∈ r.chains
  | .node filters hoops goal routers, s, _, _, h => by
    simp only [detect] at h
    simp only [chains, List.mem_map, List.mem_append]
    split at h
    · cases h
    · split at h
      · rename_i found heq
        cases h
        exact ⟨_, .inl (mem_chainsOf_of_detectFirst heq), rfl⟩
      · obtain ⟨-, h⟩ := Option.ite_none_right_eq_some.mp h
        obtain ⟨g, rfl, he⟩ := Option.map_eq_some_iff.mp h
        cases he
        exact ⟨[g], .inr (by simp), rfl⟩

theorem mem_chainsOf_of_detectFirst : ∀ {rs : List (Router M H)} {s s' : PathState}
    {chain : List H}, detectFirst m rs s = some (chain, s') → chain ∈ chainsOf rs
  | [], _, _, _, h => by cases h
  | r :: rs, s, _, _, h => by
    simp only [detectFirst] at h
    simp only [chainsOf, List.mem_append]
    split at h
    · rename_i found heq
      cases h
      exact .inl (mem_chains_of_detect heq)
    · exact .inr (mem_chainsOf_of_detectFirst h)

end

theorem detect_group (hoops : List H) (routers : List (Router M H)) (s : PathState) :
    (Router.node [] hoops none routers).detect m s =
      (detectFirst m routers s).map fun found => (hoops ++ found.1, found.2) := by
  simp only [detect, List.foldlM_nil, Option.pure_def, Option.map_none, ite_self]
  cases detectFirst m routers s <;> rfl

theorem detectFirst_cons (r : Router M H) (rs : List (Router M H)) (s : PathState) :
    detectFirst m (r :: rs) s = (r.detect m s).or (detectFirst m rs s) := by
  simp only [detectFirst]
  cases r.detect m s <;> rfl

theorem detect_method (parts : List PathPart) (n : M) (h : H) (s : PathState) :
    ((withPath parts).method n h).detect m s =
      (parts.foldlM (fun s (part : PathPart) => part.detect s) s).bind fun t =>
        if m = n ∧ t.segments = [] then some ([h], t) else none := by
  simp only [withPath, method, push, detect, Filter.detect, List.foldlM_cons, List.foldlM_nil,
    Option.bind_eq_bind]
  cases parts.foldlM (fun s (part : PathPart) => part.detect s) s with
  | none => rfl
  | some t => by_cases hm : m = n <;> by_cases hs : t.segments = [] <;>
      simp [detect, detectFirst, Filter.detect, hm, hs]

end Detect

inductive Flow
  | next
  | skipRest
  deriving DecidableEq

def callNext (handle : H → σ → σ × Flow) (stamped : σ → Bool) : List H → σ → σ
  | [], s => s
  | h :: hs, s =>
    match handle h s with
    | (s, .next) => if stamped s then s else callNext handle stamped hs s
    | (s, .skipRest) => s

section CallNext

variable {handle : H → σ → σ × Flow} {stamped : σ → Bool} {P : σ → Prop} {s : σ}

theorem callNext_of_next {h : H} {t : σ} (hs : List H) (hh : handle h s = (t, .next))
    (hst : stamped t = false) : callNext handle stamped (h :: hs) s = callNext handle stamped hs t := by
  simp [callNext, hh, hst]

theorem callNext_of_stamped {h : H} {t : σ} (hs : List H) (hh : handle h s = (t, .next))
    (hst : stamped t = true) : callNext handle stamped (h :: hs) s = t := by
  simp [callNext, hh, hst]

theorem callNext_of_skipRest {h : H} {t : σ} (hs : List H) (hh : handle h s = (t, .skipRest)) :
    callNext handle stamped (h :: hs) s = t := by
  simp [callNext, hh]

theorem callNext_cons (handle : H → σ → σ × Flow) (stamped : σ → Bool) (h : H) (hs : List H) (s : σ) :
    callNext handle stamped (h :: hs) s = (handle h s).1 ∨
      (handle h s).2 = .next ∧ stamped (handle h s).1 = false ∧
        callNext handle stamped (h :: hs) s = callNext handle stamped hs (handle h s).1 := by
  rw [callNext]
  split
  · rename_i t hh
    rw [hh]
    split
    · exact .inl rfl
    · exact .inr ⟨rfl, Bool.not_eq_true _ ▸ ‹_›, rfl⟩
  · rename_i t hh
    exact .inl (by rw [hh])

theorem callNext_invariant {hs : List H} (keeps : ∀ h ∈ hs, ∀ s, P s → P (handle h s).1) (hP : P s) :
    P (callNext handle stamped hs s) := by
  induction hs generalizing s with
  | nil => exact hP
  | cons h hs ih =>
    have hhead := keeps h List.mem_cons_self s hP
    obtain he | ⟨-, -, he⟩ := callNext_cons handle stamped h hs s
    · rwa [he]
    · rw [he]
      exact ih (fun g hg => keeps g (List.mem_cons_of_mem h hg)) hhead

theorem callNext_guard (pre post : List H) (guard : H) {Passed : Prop}
    (before : ∀ h ∈ pre ++ [guard], ∀ s, P s → P (handle h s).1)
    (passed : ∀ s, (handle guard s).2 = .next → stamped (handle guard s).1 = false → Passed)
    (hP : P s) (h : ¬ P (callNext handle stamped (pre ++ guard :: post) s)) : Passed := by
  induction pre generalizing s with
  | nil =>
    have hguard := before guard List.mem_cons_self s hP
    obtain he | ⟨hnext, hst, -⟩ :=
      callNext_cons handle stamped guard post s
    · exact absurd (he ▸ hguard) h
    · exact passed s hnext hst
  | cons g pre ih =>
    have hhead := before g List.mem_cons_self s hP
    rw [List.cons_append] at h
    obtain he | ⟨-, -, he⟩ :=
      callNext_cons handle stamped g (pre ++ guard :: post) s
    · exact absurd (he ▸ hhead) h
    · exact ih (fun f hf => before f (List.mem_cons_of_mem g hf)) hhead (he ▸ h)

end CallNext

end Router
