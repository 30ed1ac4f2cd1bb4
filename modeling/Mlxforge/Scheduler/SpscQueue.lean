import Mathlib.Tactic

/-!
The bounded queue between the worker, which pushes and closes, and the thread that reads a request.
-/

namespace Mlxforge

/-- One emitted token's log-probability data. -/
structure TokenLogprob (F : Type) where
  id : Int
  logprob : F
  top : List (Int × F)

structure SpscQueue (α : Type) where
  capacity : Nat := 1024
  items : List α := []
  closed : Bool := false

namespace SpscQueue

variable {α : Type} {q q' : SpscQueue α} {x : α}

/-- Append an item; a closed queue drops it. `none` while the producer waits for room. -/
def push (q : SpscQueue α) (x : α) : Option (SpscQueue α) :=
  if q.closed then some q
  else if q.items.length < q.capacity then some { q with items := q.items ++ [x] }
  else none

def close (q : SpscQueue α) : SpscQueue α := { q with closed := true }

/-- The next item, or no item once closed and drained. `none` while the consumer waits. -/
def pop (q : SpscQueue α) : Option (Option α × SpscQueue α) :=
  match q.items with
  | x :: rest => some (some x, { q with items := rest })
  | [] => if q.closed then some (none, q) else none

theorem push_eq_none : q.push x = none ↔ q.closed = false ∧ q.capacity ≤ q.items.length := by
  unfold push
  cases q.closed <;> simp

theorem pop_eq_none : q.pop = none ↔ q.items = [] ∧ q.closed = false := by
  unfold pop
  cases q.items <;> cases q.closed <;> simp

theorem push_spec (pushed : q.push x = some q') :
    q'.capacity = q.capacity ∧ q'.closed = q.closed ∧
      ((q.closed = true ∧ q'.items = q.items) ∨ (q.closed = false ∧ q'.items = q.items ++ [x])) := by
  unfold push at pushed
  split at pushed
  · rename_i closed
    obtain rfl := Option.some.inj pushed
    exact ⟨rfl, rfl, .inl ⟨closed, rfl⟩⟩
  · rename_i opened
    split at pushed
    · obtain rfl := Option.some.inj pushed
      exact ⟨rfl, rfl, .inr ⟨by simpa using opened, rfl⟩⟩
    · cases pushed

theorem pop_spec {item : Option α} (popped : q.pop = some (item, q')) :
    q'.capacity = q.capacity ∧ q'.closed = q.closed ∧
      ((∃ x, item = some x ∧ q.items = x :: q'.items) ∨
        (item = none ∧ q.items = [] ∧ q'.items = [] ∧ q.closed = true)) := by
  unfold pop at popped
  split at popped
  · rename_i x rest items
    obtain ⟨rfl, rfl⟩ := Prod.mk.inj (Option.some.inj popped)
    exact ⟨rfl, rfl, .inl ⟨x, rfl, items⟩⟩
  · rename_i items
    split at popped
    · rename_i closed
      obtain ⟨rfl, rfl⟩ := Prod.mk.inj (Option.some.inj popped)
      exact ⟨rfl, rfl, .inr ⟨rfl, items, items, closed⟩⟩
    · cases popped

theorem pop_fewer {item : Option α} (popped : q.pop = some (item, q')) :
    q'.capacity = q.capacity ∧ q'.closed = q.closed ∧ q'.items.length ≤ q.items.length := by
  obtain ⟨capacity, closed, ⟨x, _, items⟩ | ⟨_, items, left, _⟩⟩ := pop_spec popped
  · exact ⟨capacity, closed, by rw [items]; simp⟩
  · exact ⟨capacity, closed, by rw [items, left]⟩

end SpscQueue

end Mlxforge
