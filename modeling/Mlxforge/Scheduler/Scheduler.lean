import Mathlib.Tactic

/-!
The waiting queue between the submitting threads and the worker. Every operation runs under the scheduler's mutex.
-/

namespace Mlxforge

structure Scheduler where
  maxWaiting : Int := 0
  waiting : List Nat := []
  stopping : Bool := false

namespace Scheduler

/-- Whether the request is accepted: only a full queue rejects it. -/
def submit (s : Scheduler) (req : Nat) : Bool × Scheduler :=
  if 0 < s.maxWaiting ∧ s.maxWaiting ≤ s.waiting.length then (false, s)
  else (true, { s with waiting := s.waiting ++ [req] })

/-- The next request, or no request once stopping and drained. `none` while the worker waits. -/
def nextWaiting (s : Scheduler) : Option (Option Nat × Scheduler) :=
  match s.waiting with
  | req :: rest => some (some req, { s with waiting := rest })
  | [] => if s.stopping then some (none, s) else none

def takeWaiting (s : Scheduler) (max : Nat) : List Nat × Scheduler :=
  (s.waiting.take max, { s with waiting := s.waiting.drop max })

def stop (s : Scheduler) : Scheduler := { s with stopping := true }

variable {s s' : Scheduler} {req : Nat}

variable (s req) in
theorem submit_spec : ((s.submit req).1 = true ∧ (s.submit req).2.waiting = s.waiting ++ [req]) ∨
    ((s.submit req).1 = false ∧ (s.submit req).2.waiting = s.waiting) := by
  unfold submit
  split
  · exact .inr ⟨rfl, rfl⟩
  · exact .inl ⟨rfl, rfl⟩

theorem nextWaiting_spec {next : Option Nat} (taken : s.nextWaiting = some (next, s')) :
    (next = none ∧ s' = s ∧ s.waiting = [] ∧ s.stopping = true) ∨
      ∃ req, next = some req ∧ s.waiting = req :: s'.waiting := by
  unfold nextWaiting at taken
  split at taken
  · rename_i req rest waiting
    obtain ⟨rfl, rfl⟩ := Prod.mk.inj (Option.some.inj taken)
    exact .inr ⟨req, rfl, waiting⟩
  · rename_i waiting
    split at taken
    · rename_i stopping
      obtain ⟨rfl, rfl⟩ := Prod.mk.inj (Option.some.inj taken)
      exact .inl ⟨rfl, rfl, waiting, stopping⟩
    · cases taken

theorem takeWaiting_spec (s : Scheduler) (max : Nat) :
    (s.takeWaiting max).1 ++ (s.takeWaiting max).2.waiting = s.waiting := List.take_append_drop max s.waiting

end Scheduler

end Mlxforge
