import Serverlessd.Runtime.Serverless.Admission

namespace Serverlessd

theorem Worker.event_of_step {w w' : Worker} {a : WorkerAct} {o : WorkerOut}
    (hs : Worker.Step w a w' o) {link : Link} (hl : link ∈ w'.links) :
    (∃ old ∈ w.links, old.event = link.event) ∨ link.event ∈ w.handling := by
  have hresumed : ∀ {v : Worker}, Resumed v w' o → link ∈ v.links := by
    intro v hr
    cases hr <;> exact hl
  have hreturned : ∀ {v : Worker} {reply : Nat} {result : CallResult}, w.phase = .calling reply →
      Returned v reply result w' o → link ∈ v.links ∨ link.event ∈ w.handling := by
    intro v reply result phase hr
    have hhandling : w.handling = [reply] := by simp only [handling, phase]
    cases hr with
    | value => exact .inl hl
    | chained | notRegistered | noFunction =>
      obtain hl | hl := List.mem_append.mp hl
      · exact .inl hl
      · rw [List.mem_singleton.mp hl, hhandling]
        exact .inr List.mem_cons_self
  have hdiscarded : link ∈ ({ w with terminating := false } : Worker).discardJobs.links →
      ∃ old ∈ w.links, old.event = link.event := by
    intro hl
    obtain ⟨i, hi, heq⟩ := List.mem_mapIdx.mp hl
    refine ⟨w.links[i], List.getElem_mem hi, ?_⟩
    rw [← heq]
    split <;> rfl
  cases hs with
  | resume drained hr => exact .inl ⟨link, hresumed hr, rfl⟩
  | ret phase drained hr => exact (hreturned phase hr).imp_left fun hl => ⟨link, hl, rfl⟩
  | retTerminated phase flag hr => exact (hreturned phase hr).imp_left hdiscarded
  | terminate flag hr => exact .inl (hdiscarded (hresumed hr))
  | _ => exact .inl ⟨link, hl, rfl⟩

namespace PodTask

variable {p p' : PodTask} {a : PodAct} {o : PodOut} {r : Nat}

def Coherent (p : PodTask) : Prop := ∀ w ∈ p.tasks, w.Linked ∧ w.Matched

theorem Coherent.step (h : p.Coherent) (hs : Step p a p' o) : p'.Coherent := by
  intro w' hw'
  obtain ⟨worker, hw'⟩ := List.mem_iff_getElem?.mp hw'
  obtain ⟨w, hw, hm⟩ | ⟨-, hnew⟩ := started_of_step hs hw'
  · obtain ⟨hl, hmatch⟩ := h w (List.mem_of_getElem? hw)
    cases hm with
    | same => exact ⟨hl, hmatch⟩
    | stepped hstep => exact ⟨hl.step hstep, hmatch.step hl hstep⟩
  · rw [hnew]
    exact ⟨Worker.linked_init _, Worker.matched_init _⟩

theorem Coherent.fulfilledWith (h : p.Coherent) (hs : Step p a p' o) {body : String}
    (hr : (r, some body) ∈ o.replies) :
    body = "" ∨ ∃ (worker : Nat) (w' : Worker),
      p'.tasks[worker]? = some w' ∧ w'.FulfilledWith r body := by
  cases hs with
  | @worker target b w w' wo task runs hw =>
    obtain ⟨hl, hmatch⟩ := h w (List.mem_of_getElem? task)
    refine (Worker.fulfilledWith_of_reply hmatch hl hw hr).imp_right fun hf => ⟨target, w', ?_, hf⟩
    exact List.getElem?_set_self (List.getElem?_eq_some_iff.mp task).1
  | forwarded phase ht => cases ht <;> simp [Worker.dropped] at hr
  | haltWorker phase ht => cases ht <;> simp [Worker.dropped] at hr
  | _ => simp [Worker.dropped] at hr

end PodTask

namespace Runtime

variable {s s' : Runtime} {a : RuntimeAct} {r : Nat} {body : String}

def Fulfils (s : Runtime) (r idx worker : Nat) (body : String) : Prop :=
  ∃ p w, s.pods[idx]? = some p ∧ p.tasks[worker]? = some w ∧ w.FulfilledWith r body

theorem Fulfils.step {idx worker : Nat} (h : s.Fulfils r idx worker body) (hs : Step s a s') :
    s'.Fulfils r idx worker body := by
  obtain ⟨p, w, get, hw, hf⟩ := h
  obtain ⟨b, p', o, hstep, get', -⟩ | ⟨queue, -, get'⟩ := pod_after hs get
  · obtain ⟨w', hw', hm⟩ := PodTask.moved_of_step hstep hw
    exact ⟨p', w', get', hw', hm.fulfilledWith hf⟩
  · exact ⟨_, w, get', hw, hf⟩

/-- The events that a worker handled reached it, and a string that answers an event comes from
a worker that handled it, unless it is the empty one. -/
structure Attributed (s : Runtime) : Prop where
  pods : ∀ (idx : Nat) (p : PodTask), s.pods[idx]? = some p → p.Coherent
  links : ∀ (idx : Nat) (p : PodTask) (worker : Nat) (w : Worker), s.pods[idx]? = some p →
    p.tasks[worker]? = some w → ∀ link ∈ w.links, (link.event, idx, worker) ∈ s.delivered
  http : ∀ r body, (r, .http body) ∈ s.replies →
    body = "" ∨ ∃ idx worker, s.Fulfils r idx worker body

theorem attributed_start (c : Config) : (start c).Attributed := by
  have hstart : ∀ {idx : Nat} {p : PodTask}, (start c).pods[idx]? = some p → PodTask.start c.nWorkers = p := by
    intro idx p hp
    exact (show _ ∧ PodTask.start c.nWorkers = p by
      simpa [start, List.getElem?_replicate] using hp).2
  constructor
  · rintro idx p hp w hw
    rw [← hstart hp] at hw
    cases hw
  · rintro idx p worker w hp hw
    rw [← hstart hp] at hw
    cases hw
  · simp [start]

theorem delivered_of_step (hs : Step s a s') {d : Nat × Nat × Nat} (hd : d ∈ s.delivered) :
    d ∈ s'.delivered := by
  cases hs with
  | recv phase head hh => cases hh <;> exact hd
  | failed => exact (failed_delivered (s := s)).symm ▸ hd
  | pod =>
    rw [emit_delivered]
    exact List.mem_append_left _ hd
  | _ => exact hd

theorem Attributed.step (h : s.Attributed) (ht : s.Traced) (hs : Step s a s') : s'.Attributed := by
  constructor
  · intro idx p' get'
    obtain ⟨p, get, ⟨b, o, hstep, -⟩ | ⟨queue, rfl⟩⟩ := pod_before hs get'
    · exact (h.pods idx p get).step hstep
    · exact h.pods idx p get
  · intro idx p' worker w' get' hw' link hl
    obtain ⟨p, get, ⟨b, o, hstep, -⟩ | ⟨queue, rfl⟩⟩ := pod_before hs get'
    · obtain ⟨w, hw, hm⟩ | ⟨-, hnew⟩ := PodTask.started_of_step hstep hw'
      · cases hm with
        | same => exact delivered_of_step hs (h.links idx p worker _ get hw link hl)
        | stepped hwork =>
          obtain ⟨old, hold, he⟩ | hhandling := Worker.event_of_step hwork hl
          · exact delivered_of_step hs (he ▸ h.links idx p worker w get hw old hold)
          · refine delivered_of_step hs (ht.held idx p worker w _ get hw ?_)
            have hpos := List.count_pos_iff.mpr hhandling
            rw [Worker.held]
            omega
      · rw [hnew] at hl
        cases hl
    · exact delivered_of_step hs (h.links idx p worker w' get hw' link hl)
  · intro r body hm
    by_cases ha : ∃ idx b, a = .pod idx b
    · obtain ⟨idx, b, rfl⟩ := ha
      obtain hold | hnew : (r, .http body) ∈ s.replies ∨ ∃ p p' o, s.pods[idx]? = some p ∧
          PodTask.Step p b p' o ∧ s'.pods = s.pods.set idx p' ∧ (r, some body) ∈ o.replies := by
        cases hs with
        | @pod _ _ p p' o get closed hstep =>
          obtain hm | hm := List.mem_append.mp (http_of_deliver hm)
          · exact .inl hm
          · exact .inr ⟨p, p', o, get, hstep, emit_pods, http_mem_answers.mp hm⟩
      · exact (h.http r body hold).imp_right (Exists.imp fun i => Exists.imp fun worker hf => hf.step hs)
      · obtain ⟨p, p', o, get, hstep, hpods, hr⟩ := hnew
        refine ((h.pods idx p get).fulfilledWith hstep hr).imp_right ?_
        rintro ⟨worker, w', hw', hf⟩
        refine ⟨idx, worker, p', w', ?_, hw', hf⟩
        rw [hpods]
        exact List.getElem?_set_self (List.getElem?_eq_some_iff.mp get).1
    · have hold := http_of_step hs (fun idx b hb => ha ⟨idx, b, hb⟩) hm
      exact (h.http r body hold).imp_right (Exists.imp fun i => Exists.imp fun worker hf => hf.step hs)

theorem Attributed.delivered {idx worker : Nat} (h : s.Attributed)
    (hf : s.Fulfils r idx worker body) : (r, idx, worker) ∈ s.delivered := by
  obtain ⟨p, w, get, hw, link, hl, rfl, -⟩ := hf
  exact h.links idx p worker w get hw link hl

end Runtime

end Serverlessd
