import Mathlib
import Mlxforge.Lib.Except

/-!
Stateful code whose calls may throw at labelled points. `EStateM` keeps the state an exception leaves behind, so what a
`catch` finds is what had been written until then.
-/

namespace Mlxforge
namespace Attempt

open Std.Do

set_option mvcgen.warning false

variable {E F S A : Type}

/-- No call throws but by its own computation. -/
def quiet : E → Bool := fun _ => false

/-- Get past the call at `point`, unless it throws in this run. -/
def reach (fails : E → Bool) (point : E) : EStateM E S Unit := if fails point then throw point else pure ()

/-- The call at `point`, which also throws when its own computation does. -/
def call (fails : E → Bool) (point : E) (x : Except F A) : EStateM E S A := do
  reach fails point
  match x with
  | .ok a => pure a
  | .error _ => throw point

variable {fails : E → Bool} {point : E} {s₀ : S}

@[spec] theorem reach_spec :
    ⦃fun s => ⌜s = s₀⌝⦄ (reach fails point : EStateM E S Unit)
    ⦃post⟨fun _ s => ⌜s = s₀⌝, fun p s => ⌜s = s₀ ∧ p = point ∧ fails point = true⌝⟩⦄ := by
  unfold reach
  mvcgen

/-- A call changes nothing, whether it returns or throws. -/
@[spec] theorem call_spec {x : Except F A} :
    ⦃fun s => ⌜s = s₀⌝⦄ (call fails point x : EStateM E S A)
    ⦃post⟨fun a s => ⌜s = s₀ ∧ x = .ok a⌝,
      fun p s => ⌜s = s₀ ∧ p = point ∧ (fails point = true ∨ ∃ e, x = .error e)⌝⟩⦄ := by
  unfold call
  mvcgen
  all_goals grind

/-- What was thrown, and the state it left. -/
def exception : EStateM.Result E S A → Option (E × S)
  | .ok _ _ => none
  | .error e s => some (e, s)

theorem error_of_exception {r : EStateM.Result E S A} {x : E × S} (h : exception r = some x) : r = .error x.1 x.2 := by
  cases r with
  | ok => cases h
  | error e s => rw [← Option.some.inj h]

section Runs

variable {P : S → Prop} {x : EStateM E S A} {Q : A → S → Prop} {R : E → S → Prop} {s t : S}

theorem returned (spec : ⦃fun s => ⌜P s⌝⦄ x ⦃post⟨fun a s => ⌜Q a s⌝, fun e s => ⌜R e s⌝⟩⦄) {a : A} (start : P s)
    (run : x s = .ok a t) : Q a t := by
  have h := spec s start
  simp only [wp, PredTrans.apply, EStateM.run, run] at h
  exact h

theorem thrown (spec : ⦃fun s => ⌜P s⌝⦄ x ⦃post⟨fun a s => ⌜Q a s⌝, fun e s => ⌜R e s⌝⟩⦄) {e : E} (start : P s)
    (run : x s = .error e t) : R e t := by
  have h := spec s start
  simp only [wp, PredTrans.apply, EStateM.run, run] at h
  exact h

end Runs

/-! ### Loops as walks -/

section Walks

/-- A loop over a range has visited as many indices as the one it is at. -/
theorem range_cursor {k i : Nat} {before after : List Nat} (loop : List.range k = before ++ i :: after) :
    i = before.length ∧ i < k := by
  have entry : (List.range k)[before.length]? = some i := by rw [loop]; simp
  obtain ⟨inside, value⟩ := List.getElem?_eq_some_iff.mp entry
  rw [List.length_range] at inside
  rw [List.getElem_range] at value
  omega

variable {ε α β γ : Type}

theorem mapM_snoc {f : α → Except ε β} {xs : List α} {x : α} {ys : List β} {y : β} (front : xs.mapM f = .ok ys)
    (last : f x = .ok y) : (xs ++ [x]).mapM f = .ok (ys ++ [y]) := by
  rw [List.mapM_append, front, mapM_cons_ok last List.mapM_nil]
  rfl

theorem mapM_stops {f : α → Except ε β} {xs rest : List α} {x : α} {ys : List β} {e : ε} (front : xs.mapM f = .ok ys)
    (stop : f x = .error e) : (xs ++ x :: rest).mapM f = .error e := by
  rw [List.mapM_append, front, List.mapM_cons, stop]
  rfl

/-- A walk over two lists is a loop over the indices. -/
theorem mapM_range_zip {f : α → γ → Except ε β} {as : List α} {cs : List γ} (a : α) (c : γ)
    (walk : List α → List γ → Except ε (List β)) (same : as.length = cs.length) (nil : walk [] [] = .ok [])
    (cons : ∀ a as c cs, walk (a :: as) (c :: cs) = do
      let x ← f a c
      let xs ← walk as cs
      return x :: xs) :
    (List.range as.length).mapM (fun i => f (as.getD i a) (cs.getD i c)) = walk as cs := by
  induction as generalizing cs with
  | nil =>
    cases cs with
    | nil => exact nil.symm
    | cons => simp at same
  | cons x as ih =>
    cases cs with
    | nil => simp at same
    | cons y cs =>
      rw [cons, ← ih (by simpa using same), List.length_cons, List.range_succ_eq_map, List.mapM_cons, List.mapM_map]
      rfl

end Walks

end Attempt
end Mlxforge
