import Mlxforge.Lib.Except

/-! Two computations side by side: they throw the same, or succeed with related results. -/

namespace Mlxforge

variable {ε α β γ δ : Type}

inductive Alike (R : α → β → Prop) : Except ε α → Except ε β → Prop
  | ok {a : α} {b : β} (related : R a b) : Alike R (.ok a) (.ok b)
  | error (e : ε) : Alike R (.error e) (.error e)

namespace Alike

variable {R : α → β → Prop} {S : γ → δ → Prop} {x : Except ε α} {y : Except ε β}

theorem refl (x : Except ε α) : Alike Eq x x := by
  cases x with
  | error e => exact .error e
  | ok a => exact .ok rfl

theorem imp {R' : α → β → Prop} (weaker : ∀ a b, R a b → R' a b) (alike : Alike R x y) : Alike R' x y := by
  cases alike with
  | ok related => exact .ok (weaker _ _ related)
  | error e => exact .error e

/-- Sequencing: the rest runs side by side from related results. -/
theorem bind {f : α → Except ε γ} {g : β → Except ε δ} (alike : Alike R x y) (rest : ∀ a b, R a b → Alike S (f a) (g b)) :
    Alike S (x >>= f) (y >>= g) := by
  cases alike with
  | ok related => exact rest _ _ related
  | error e => exact .error e

/-- A shared first part. -/
theorem bind_self {z : Except ε α} {f : α → Except ε γ} {g : α → Except ε δ} (rest : ∀ a, z = .ok a → Alike S (f a) (g a)) :
    Alike S (z >>= f) (z >>= g) := by
  cases z with
  | error e => exact .error e
  | ok a => exact rest a rfl

/-- Related by a function, the second run is the image of the first. -/
theorem map_eq {f : α → β} (alike : Alike (fun a b => b = f a) x y) : y = f <$> x := by
  cases alike with
  | ok related => rw [related]; rfl
  | error e => rfl

end Alike

end Mlxforge
