import Mathlib.Data.List.Basic

universe u

namespace Serverlessd

structure Pod (Handle : Type u) where
  workers : List (Option Handle) := []
  capacity : Nat
  vacancies : List Nat := []
  deriving DecidableEq

namespace Pod

variable {Handle : Type u}

def start (nWorkers : Nat) : Pod Handle := { capacity := nWorkers }

def hasVacancy (p : Pod Handle) : Bool :=
  !p.vacancies.isEmpty || decide (p.workers.length < p.capacity)

def push (p : Pod Handle) (slot : Option Handle) : Pod Handle :=
  { p with
    workers := p.workers ++ [slot]
    capacity := if p.workers.length < p.capacity then p.capacity else max (2 * p.capacity) 4 }

/-- The argument of `unwrap_or` is evaluated in either case. -/
def getNextWorkerId (p : Pod Handle) : Pod Handle × Nat :=
  let popped := p.vacancies.getLast?
  let p := { p with vacancies := p.vacancies.dropLast }
  let ln := p.workers.length
  (p.push none, popped.getD ln)

/-- `none` is the undefined behaviour of `unwrap_unchecked`. -/
def putWorker (p : Pod Handle) (id : Nat) (worker : Handle) : Option (Pod Handle) :=
  if id < p.workers.length then some { p with workers := p.workers.set id (some worker) } else none

def removeWorker (p : Pod Handle) (id : Nat) : Option (Pod Handle × Bool) :=
  match p.workers[id]? with
  | none => some (p, false)
  | some none => none
  | some (some _) =>
    some ({ p with workers := p.workers.set id none, vacancies := p.vacancies ++ [id] }, true)

def getWorker (p : Pod Handle) (id : Nat) : Option Handle := p.workers[id]?.join

def createWorker (p : Pod Handle) (worker : Handle) : Option (Pod Handle × Nat) :=
  let (p, id) := p.getNextWorkerId
  (p.putWorker id worker).map fun p => (p, id)

section Created

variable {p : Pod Handle} {worker : Handle}

theorem createWorker_of_no_vacancies (h : p.vacancies = []) :
    p.createWorker worker = some (p.push (some worker), p.workers.length) := by
  simp [createWorker, getNextWorkerId, putWorker, push, h]

theorem hasVacancy_of_no_vacancies (h : p.vacancies = []) :
    p.hasVacancy = true ↔ p.workers.length < p.capacity := by
  simp [hasVacancy, h]

theorem push_capacity (h : p.workers.length < p.capacity) (slot : Option Handle) :
    (p.push slot).capacity = p.capacity := by
  simp [push, h]

end Created

end Pod

end Serverlessd
