import Mathlib.Data.List.Nodup
import Mathlib.Logic.Relation
import Mathlib.Tactic.Tauto
import Serverlessd.Lib.Lists

/-! Clients that send calls to one server through a queue, and the order in which the
server takes the calls. -/

universe u v

namespace Fifo

inductive Status
  | sending
  | waiting
  | done
  deriving DecidableEq

inductive Event (A : Type u)
  | issued (call : Nat)
  | sent (call : Nat)
  | returned (call : Nat) (answer : A)
  | abandoned (call : Nat)
  deriving DecidableEq

end Fifo

/-- A call is known by its place in `calls`; `taken` are those that the server has taken
from the queue. -/
structure Fifo (C : Type u) (A : Type v) where
  calls : List (C × Fifo.Status)
  queue : List Nat
  taken : List Nat
  history : List (Fifo.Event A)

namespace Fifo

variable {C : Type u} {A : Type v} {s s' : Fifo C A}

def order (s : Fifo C A) : List Nat := s.taken ++ s.queue

def setStatus (s : Fifo C A) (call : Nat) (status : Status) : Fifo C A :=
  { s with calls := s.calls.modify call fun c => (c.1, status) }

def record (s : Fifo C A) (event : Event A) : Fifo C A := { s with history := s.history ++ [event] }

inductive Step : Fifo C A → Fifo C A → Prop
  | issue {s : Fifo C A} {client : C} (idle : ∀ c ∈ s.calls, c.1 = client → c.2 = .done) :
      Step s ({ s with calls := s.calls ++ [(client, Status.sending)] }.record (.issued s.calls.length))
  | send {s : Fifo C A} {call : Nat} {client : C} (get : s.calls[call]? = some (client, .sending)) :
      Step s (({ s with queue := s.queue ++ [call] }.setStatus call .waiting).record (.sent call))
  | finish {s : Fifo C A} {call : Nat} {client : C} {status : Status} {event : Event A}
      (get : s.calls[call]? = some (client, status)) (running : status ≠ .done)
      (ends : event = .abandoned call ∨ ∃ answer, event = .returned call answer) :
      Step s ((s.setStatus call .done).record event)
  | take {s : Fifo C A} {call : Nat} {queue : List Nat} (head : s.queue = call :: queue) :
      Step s { s with queue := queue, taken := s.taken ++ [call] }
  | clear {s : Fifo C A} : Step s { s with queue := [] }

section Pairs

variable {α : Type u} {l q : List α} {a b x : α}

theorem pair_sublist_cons : [a, b].Sublist (x :: l) ↔ [a, b].Sublist l ∨ a = x ∧ b ∈ l := by
  rw [List.sublist_cons_iff]
  refine or_congr_right ⟨?_, ?_⟩
  · rintro ⟨r, he, hr⟩
    obtain ⟨rfl, rfl⟩ := List.cons.inj he
    exact ⟨rfl, List.singleton_sublist.mp hr⟩
  · rintro ⟨rfl, hb⟩
    exact ⟨[b], rfl, List.singleton_sublist.mpr hb⟩

theorem pair_sublist_concat : [a, b].Sublist (l ++ [x]) ↔ [a, b].Sublist l ∨ a ∈ l ∧ b = x := by
  induction l with
  | nil => simp
  | cons y l ih =>
    rw [List.cons_append, pair_sublist_cons, pair_sublist_cons, ih]
    simp only [List.mem_append, List.mem_cons, List.not_mem_nil, or_false]
    tauto

theorem pair_sublist_left (hn : (l ++ q).Nodup) (hb : b ∈ l) (h : [a, b].Sublist (l ++ q)) :
    [a, b].Sublist l := by
  induction l with
  | nil => cases hb
  | cons y l ih =>
    rw [List.cons_append, pair_sublist_cons] at h
    obtain ⟨hy, hn⟩ := List.nodup_cons.mp hn
    have hne : b ∈ l ++ q → b ∈ l := fun hbq =>
      (List.mem_cons.mp hb).resolve_left fun he => hy (he ▸ hbq)
    obtain h | ⟨ha, hbq⟩ := h
    · have hbq : b ∈ l ++ q := h.subset (by simp)
      exact pair_sublist_cons.mpr (.inl (ih hn (hne hbq) h))
    · exact pair_sublist_cons.mpr (.inr ⟨ha, hne hbq⟩)

theorem mem_left_of_pair (hn : (l ++ b :: q).Nodup) (h : [a, b].Sublist (l ++ b :: q)) : a ∈ l := by
  have heq : l ++ b :: q = (l ++ [b]) ++ q := by simp
  rw [heq] at hn h
  obtain h | ⟨ha, -⟩ := pair_sublist_concat.mp (pair_sublist_left hn (by simp) h)
  · exact h.subset List.mem_cons_self
  · exact ha

end Pairs

def Left (s : Fifo C A) (call : Nat) : Prop := ∃ c, s.calls[call]? = some c ∧ c.2 ≠ .sending

structure Ordered (s : Fifo C A) : Prop where
  nodup : s.order.Nodup
  left : ∀ call ∈ s.order, s.Left call
  idle : ∀ (i j : Nat) (c d : C × Status), i < j → s.calls[i]? = some c →
    s.calls[j]? = some d → c.1 = d.1 → c.2 = .done
  program : ∀ (i j : Nat) (c d : C × Status), i < j → s.calls[i]? = some c →
    s.calls[j]? = some d → c.1 = d.1 → i ∈ s.order → j ∈ s.order → [i, j].Sublist s.order
  returned : ∀ call answer, .returned call answer ∈ s.history →
    ∃ c, s.calls[call]? = some c ∧ c.2 = .done
  realTime : ∀ i j answer, [.returned i answer, .issued j].Sublist s.history →
    i ∈ s.order → j ∈ s.order → [i, j].Sublist s.order

variable {call i j : Nat} {client : C} {status : Status} {event : Event A}

theorem Ordered.congr (h : s.Ordered) (ho : s'.order = s.order) (hc : s'.calls = s.calls)
    (hh : s'.history = s.history) : s'.Ordered := by
  constructor
  · exact ho ▸ h.nodup
  · rw [ho]; simpa only [Left, hc] using h.left
  · rw [hc]; exact h.idle
  · rw [ho, hc]; exact h.program
  · rw [hc, hh]; exact h.returned
  · rw [ho, hh]; exact h.realTime

theorem Ordered.not_mem_of_sending (h : s.Ordered) (get : s.calls[call]? = some (client, .sending)) :
    call ∉ s.order := by
  intro hm
  obtain ⟨c, hc, hne⟩ := h.left call hm
  obtain rfl := Option.some.inj (get.symm.trans hc)
  exact hne rfl

theorem getElem?_setStatus {c : C × Status} (h : (s.setStatus call status).calls[i]? = some c) :
    ∃ old, s.calls[i]? = some (c.1, old) ∧ (i ≠ call → c.2 = old) := by
  simp only [setStatus, List.getElem?_modify] at h
  obtain ⟨old, hold, rfl⟩ := Option.map_eq_some_iff.mp h
  refine ⟨old.2, ?_, fun hne => ?_⟩
  · rw [hold]
    split <;> rfl
  · rw [if_neg hne.symm]

theorem setStatus_get {c : C × Status} (h : s.calls[i]? = some c) :
    (s.setStatus call status).calls[i]? = some (c.1, if i = call then status else c.2) := by
  simp only [setStatus, List.getElem?_modify, h, Option.map_eq_map, Option.map_some]
  by_cases hi : i = call
  · simp [hi]
  · simp [hi, Ne.symm hi]

theorem Ordered.issue (h : s.Ordered) (idle : ∀ c ∈ s.calls, c.1 = client → c.2 = .done) :
    ({ s with calls := s.calls ++ [(client, Status.sending)] }.record
      (.issued s.calls.length)).Ordered := by
  have hnew : s.calls.length ∉ s.order := by
    intro hm
    obtain ⟨c, hc, -⟩ := h.left _ hm
    simp at hc
  have hget : ∀ {i : Nat} {c : C × Status}, s.calls[i]? = some c →
      (s.calls ++ [(client, Status.sending)])[i]? = some c := fun hc => by
    rwa [List.getElem?_append_left (List.getElem?_eq_some_iff.mp hc).1]
  constructor
  · exact h.nodup
  · intro call hm
    obtain ⟨c, hc, hne⟩ := h.left call hm
    exact ⟨c, hget hc, hne⟩
  · intro i j c d hij hi hj heq
    obtain hj | ⟨rfl, rfl⟩ := List.getElem?_concat_eq_some.mp hj
    · obtain hi | ⟨rfl, -⟩ := List.getElem?_concat_eq_some.mp hi
      · exact h.idle i j c d hij hi hj heq
      · have hlt := (List.getElem?_eq_some_iff.mp hj).1
        omega
    · obtain hi | ⟨rfl, -⟩ := List.getElem?_concat_eq_some.mp hi
      · exact idle c (List.mem_of_getElem? hi) heq
      · omega
  · intro i j c d hij hi hj heq hio hjo
    obtain hj | ⟨rfl, -⟩ := List.getElem?_concat_eq_some.mp hj
    · obtain hi | ⟨rfl, -⟩ := List.getElem?_concat_eq_some.mp hi
      · exact h.program i j c d hij hi hj heq hio hjo
      · exact absurd hio hnew
    · exact absurd hjo hnew
  · intro call answer hm
    obtain ⟨c, hc, hd⟩ := h.returned call answer (by simpa [record] using hm)
    exact ⟨c, hget hc, hd⟩
  · intro i j answer hsub hio hjo
    obtain hsub | ⟨-, heq⟩ := pair_sublist_concat.mp hsub
    · exact h.realTime i j answer hsub hio hjo
    · cases heq
      exact absurd hjo hnew

theorem Ordered.setStatus {old : Status} (h : s.Ordered) (get : s.calls[call]? = some (client, old))
    (running : old ≠ .done) (hs : status ≠ .sending) : (s.setStatus call status).Ordered := by
  have hdone : ∀ {i : Nat} {c : C}, s.calls[i]? = some (c, .done) → i ≠ call := by
    rintro i c hi rfl
    exact running (Prod.mk.inj (Option.some.inj (get.symm.trans hi))).2
  constructor
  · exact h.nodup
  · intro i hm
    obtain ⟨c, hc, hne⟩ := h.left i hm
    refine ⟨_, setStatus_get hc, ?_⟩
    dsimp only
    split
    · exact hs
    · exact hne
  · intro i j c d hij hi hj heq
    obtain ⟨ci, hi, hsame⟩ := getElem?_setStatus hi
    obtain ⟨dj, hj, -⟩ := getElem?_setStatus hj
    have hci : ci = .done := h.idle i j _ _ hij hi hj heq
    exact (hsame (hdone (hci ▸ hi))).trans hci
  · intro i j c d hij hi hj heq
    obtain ⟨ci, hi, -⟩ := getElem?_setStatus hi
    obtain ⟨dj, hj, -⟩ := getElem?_setStatus hj
    exact h.program i j _ _ hij hi hj heq
  · intro i answer hm
    obtain ⟨⟨c, st⟩, hc, rfl⟩ := h.returned i answer hm
    exact ⟨_, setStatus_get hc, if_neg (hdone hc)⟩
  · exact h.realTime

theorem Ordered.record (h : s.Ordered) (issued : ∀ call, event ≠ .issued call)
    (returned : ∀ call answer, event = .returned call answer →
      ∃ c, s.calls[call]? = some c ∧ c.2 = .done) : (s.record event).Ordered := by
  refine ⟨h.nodup, h.left, h.idle, h.program, ?_, ?_⟩
  · intro call answer hm
    obtain hm | heq : .returned call answer ∈ s.history ∨ .returned call answer = event := by
      simpa [Fifo.record] using hm
    · exact h.returned call answer hm
    · exact returned call answer heq.symm
  · intro i j answer hsub
    obtain hsub | ⟨-, heq⟩ := pair_sublist_concat.mp hsub
    · exact h.realTime i j answer hsub
    · exact absurd heq.symm (issued j)

theorem Ordered.push (h : s.Ordered) (get : s.calls[call]? = some (client, .waiting))
    (hnew : call ∉ s.order) : ({ s with queue := s.queue ++ [call] } : Fifo C A).Ordered := by
  have horder : ({ s with queue := s.queue ++ [call] } : Fifo C A).order = s.order ++ [call] :=
    (List.append_assoc ..).symm
  have hrunning : ∀ {c : C × Status}, s.calls[call]? = some c → c.2 ≠ .done := by
    rintro c hc hd
    obtain rfl := Option.some.inj (get.symm.trans hc)
    cases hd
  have hpair : ∀ {i j : Nat}, i ≠ call → (i ∈ s.order → j ∈ s.order → [i, j].Sublist s.order) →
      i ∈ s.order ++ [call] → j ∈ s.order ++ [call] → [i, j].Sublist (s.order ++ [call]) := by
    intro i j hi hold hio hjo
    have hio : i ∈ s.order := by simpa [hi] using hio
    rw [pair_sublist_concat]
    obtain hjo | hj := List.mem_append.mp hjo
    · exact .inl (hold hio hjo)
    · exact .inr ⟨hio, List.mem_singleton.mp hj⟩
  constructor
  · rw [horder]
    rw [← List.concat_eq_append, List.nodup_concat]
    exact ⟨hnew, h.nodup⟩
  · intro i hm
    rw [horder, List.mem_append, List.mem_singleton] at hm
    obtain hm | rfl := hm
    · exact h.left i hm
    · exact ⟨_, get, by simp⟩
  · exact h.idle
  · intro i j c d hij hi hj heq
    rw [horder]
    refine hpair ?_ (h.program i j c d hij hi hj heq)
    rintro rfl
    exact hrunning hi (h.idle i j c d hij hi hj heq)
  · exact h.returned
  · intro i j answer hsub
    rw [horder]
    refine hpair ?_ (h.realTime i j answer hsub)
    rintro rfl
    obtain ⟨c, hc, hd⟩ := h.returned i answer (hsub.subset (by simp))
    exact hrunning hc hd

theorem Ordered.clear (h : s.Ordered) : ({ s with queue := [] } : Fifo C A).Ordered := by
  have horder : ({ s with queue := [] } : Fifo C A).order = s.taken := List.append_nil _
  have hmem : ∀ {i : Nat}, i ∈ s.taken → i ∈ s.order := List.mem_append_left _
  refine ⟨?_, ?_, h.idle, ?_, h.returned, ?_⟩ <;> rw [horder]
  · exact h.nodup.sublist (List.sublist_append_left _ _)
  · exact fun i hm => h.left i (hmem hm)
  · exact fun i j c d hij hi hj heq hio hjo =>
      pair_sublist_left h.nodup hjo (h.program i j c d hij hi hj heq (hmem hio) (hmem hjo))
  · exact fun i j answer hsub hio hjo =>
      pair_sublist_left h.nodup hjo (h.realTime i j answer hsub (hmem hio) (hmem hjo))

theorem Ordered.step (h : s.Ordered) (hs : Step s s') : s'.Ordered := by
  cases hs with
  | issue idle => exact h.issue idle
  | @send call client get =>
    have hwaiting : (s.setStatus call .waiting).calls[call]? = some (client, .waiting) := by
      simp [setStatus_get get]
    have hpush := (h.setStatus get (by simp) (by simp)).push hwaiting (h.not_mem_of_sending get)
    exact hpush.record (by simp) (by simp)
  | @finish call client status event get running ends =>
    refine (h.setStatus get running (by simp)).record ?_ ?_
    · obtain rfl | ⟨answer, rfl⟩ := ends <;> simp
    · rintro call' answer rfl
      obtain heq | ⟨answer', heq⟩ := ends <;> cases heq
      exact ⟨_, setStatus_get get, if_pos rfl⟩
  | take head => exact h.congr (by simp [order, head]) rfl rfl
  | clear => exact h.clear

theorem left_of_step (hs : Step s s') (h : s.Left i) : s'.Left i := by
  obtain ⟨c, hc, hne⟩ := h
  have hset : ∀ {call : Nat} {status : Status}, status ≠ .sending →
      (s.setStatus call status).Left i := by
    intro call status hst
    refine ⟨_, setStatus_get hc, ?_⟩
    dsimp only
    split
    · exact hst
    · exact hne
  cases hs with
  | issue =>
    refine ⟨c, ?_, hne⟩
    simp only [Fifo.record]
    rw [List.getElem?_append_left (List.getElem?_eq_some_iff.mp hc).1, hc]
  | send => exact hset (by simp)
  | finish => exact hset (by simp)
  | take | clear => exact ⟨c, hc, hne⟩

theorem mem_order_of_step (hs : Step s s') (h : i ∈ s'.order) :
    i ∈ s.order ∨ ∃ client, s.calls[i]? = some (client, .sending) := by
  cases hs with
  | issue | finish => exact .inl h
  | @send call client get =>
    obtain h | h | h : i ∈ s.taken ∨ i ∈ s.queue ∨ i = call := by
      simpa [order, Fifo.record, Fifo.setStatus] using h
    · exact .inl (List.mem_append_left _ h)
    · exact .inl (List.mem_append_right _ h)
    · exact .inr ⟨client, h ▸ get⟩
  | take head => exact .inl (by simpa [order, head] using h)
  | clear => exact .inl (List.mem_append_left _ (by simpa [order] using h))

def Complete (s : Fifo C A) : Prop :=
  ∀ (i : Nat) (client : C), s.calls[i]? = some (client, .waiting) → i ∈ s.order

theorem Complete.step (h : s.Complete) (hs : Step s s') (keeps : ∀ i ∈ s.order, i ∈ s'.order) :
    s'.Complete := by
  intro i client hi
  cases hs with
  | issue =>
    obtain hi | ⟨-, hi⟩ := List.getElem?_concat_eq_some.mp hi
    · exact h i client hi
    · cases hi
  | @send call _ get =>
    by_cases hne : i = call
    · simp [order, Fifo.record, Fifo.setStatus, hne]
    · obtain ⟨old, hold, hsame⟩ := getElem?_setStatus hi
      obtain rfl : .waiting = old := hsame hne
      exact keeps i (h i client hold)
  | @finish call _ _ event get =>
    obtain ⟨old, hold, hsame⟩ := getElem?_setStatus hi
    by_cases hne : i = call
    · subst hne
      simp [Fifo.record, setStatus_get get] at hi
    · obtain rfl : .waiting = old := hsame hne
      exact h i client hold
  | take | clear => exact keeps i (h i client hi)

theorem ordered_empty : (⟨[], [], [], []⟩ : Fifo C A).Ordered := by
  constructor <;> simp [order]

end Fifo
