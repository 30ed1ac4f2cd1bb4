import Mathlib

/-!
Runs of a partial step function. `ok` restricts the steps a run may take; `Free` allows all of them.
-/

namespace Transition

variable {σ α : Type}

inductive Reachable (step : σ → α → Option σ) (ok : σ → α → Prop) (start : σ) : σ → Prop where
  | refl : Reachable step ok start start
  | tail {s t : σ} {a : α} (reached : Reachable step ok start s) (allowed : ok s a) (stepped : step s a = some t) :
      Reachable step ok start t

def Free : σ → α → Prop := fun _ _ => True

variable {step : σ → α → Option σ} {ok ok' : σ → α → Prop} {start s t : σ}

namespace Reachable

/-- The invariant rule. -/
theorem invariant {P : σ → Prop} (init : P start)
    (preserved : ∀ {s a t}, P s → ok s a → step s a = some t → P t) (reached : Reachable step ok start s) : P s := by
  induction reached with
  | refl => exact init
  | tail _ allowed stepped ih => exact preserved ih allowed stepped

/-- The invariant rule with the help of what is known of every reachable state. -/
theorem invariant_with {P : σ → Prop} (init : P start)
    (preserved : ∀ {s a t}, Reachable step ok start s → P s → ok s a → step s a = some t → P t)
    (reached : Reachable step ok start s) : P s := by
  induction reached with
  | refl => exact init
  | tail before allowed stepped ih => exact preserved before ih allowed stepped

theorem trans (first : Reachable step ok start s) (second : Reachable step ok s t) : Reachable step ok start t := by
  induction second with
  | refl => exact first
  | tail _ allowed stepped ih => exact .tail ih allowed stepped

theorem mono (weaker : ∀ s a, ok s a → ok' s a) (reached : Reachable step ok start s) :
    Reachable step ok' start s := by
  induction reached with
  | refl => exact .refl
  | tail _ allowed stepped ih => exact .tail ih (weaker _ _ allowed) stepped

/-- A run of steps that are written otherwise. -/
theorem map {β : Type} {step' : σ → β → Option σ} {allows : σ → β → Prop} (f : β → α)
    (steps : ∀ s b, step' s b = step s (f b)) (allowed : ∀ s b, allows s b → ok s (f b))
    (reached : Reachable step' allows start s) : Reachable step ok start s := by
  induction reached with
  | refl => exact .refl
  | tail _ may stepped ih => exact .tail ih (allowed _ _ may) ((steps _ _).symm.trans stepped)

theorem free_tail {a : α} (reached : Reachable step Free start s) (stepped : step s a = some t) :
    Reachable step Free start t := .tail reached trivial stepped

/-- A listed run of allowed-by-default steps. -/
theorem of_foldlM {acts : List α} (ran : acts.foldlM step start = some s) : Reachable step Free start s := by
  induction acts generalizing start with
  | nil =>
    obtain rfl : start = s := by simpa using ran
    exact .refl
  | cons a acts ih =>
    rw [List.foldlM_cons] at ran
    obtain ⟨next, stepped, rest⟩ := Option.bind_eq_some_iff.mp ran
    exact trans (free_tail .refl stepped) (ih rest)

/-- A listed run whose steps are allowed where they are taken. -/
theorem of_allowed [∀ s a, Decidable (ok s a)] {acts : List α}
    (ran : acts.foldlM (fun s a => if ok s a then step s a else none) start = some s) : Reachable step ok start s := by
  induction acts generalizing start with
  | nil =>
    obtain rfl : start = s := by simpa using ran
    exact .refl
  | cons a acts ih =>
    rw [List.foldlM_cons] at ran
    obtain ⟨next, stepped, rest⟩ := Option.bind_eq_some_iff.mp ran
    split at stepped
    · rename_i allowed
      exact trans (.tail .refl allowed stepped) (ih rest)
    · cases stepped

/-- A cycle of steps repeated `n` times. -/
theorem iterate (f : Nat → σ) (n : Nat) (cycle : ∀ k < n, Reachable step ok (f k) (f (k + 1))) :
    Reachable step ok (f 0) (f n) := by
  induction n with
  | zero => exact .refl
  | succ n ih => exact trans (ih fun k below => cycle k (Nat.lt_succ_of_lt below)) (cycle n (Nat.lt_succ_self n))

end Reachable

/-! ### Runs that cost -/

/-- A run whose steps cost `n` in all. -/
inductive Run (step : σ → α → Option σ) (ok : σ → α → Prop) (cost : α → Nat) (start : σ) : Nat → σ → Prop where
  | refl : Run step ok cost start 0 start
  | tail {n : Nat} {s t : σ} {a : α} (ran : Run step ok cost start n s) (allowed : ok s a) (stepped : step s a = some t) :
      Run step ok cost start (n + cost a) t

namespace Run

variable {cost : α → Nat} {n : Nat}

theorem reachable (ran : Run step ok cost start n s) : Reachable step ok start s := by
  induction ran with
  | refl => exact .refl
  | tail _ allowed stepped ih => exact .tail ih allowed stepped

/-- The ranking rule: short of the goal every step takes its cost off the rank, so the rank pays for the run. -/
theorem ranked (P goal : σ → Prop) (rank : σ → Nat) (init : P start)
    (preserved : ∀ {s a t}, P s → ok s a → step s a = some t → P t)
    (stays : ∀ {s a t}, P s → goal s → ok s a → step s a = some t → goal t)
    (falls : ∀ {s a t}, P s → ¬goal s → ok s a → step s a = some t → goal t ∨ rank t + cost a ≤ rank s)
    (ran : Run step ok cost start n s) : P s ∧ (goal s ∨ rank s + n ≤ rank start) := by
  induction ran with
  | refl => exact ⟨init, .inr (Nat.le_refl _)⟩
  | tail _ allowed stepped ih =>
    obtain ⟨held, ih⟩ := ih
    refine ⟨preserved held allowed stepped, ?_⟩
    rcases ih with reached | paid
    · exact .inl (stays held reached allowed stepped)
    · rcases Classical.em (goal _) with reached | short
      · exact .inl (stays held reached allowed stepped)
      · exact (falls held short allowed stepped).imp_right fun fallen => by omega

/-- A listed run. -/
theorem of_foldlM [∀ s a, Decidable (ok s a)] {acts : List α}
    (ran : acts.foldlM (fun s a => if ok s a then step s a else none) start = some s) :
    Run step ok cost start (acts.map cost).sum s := by
  induction acts using List.reverseRecOn generalizing s with
  | nil =>
    obtain rfl : start = s := by simpa using ran
    exact .refl
  | append_singleton acts a ih =>
    rw [List.foldlM_append] at ran
    obtain ⟨before, first, last⟩ := Option.bind_eq_some_iff.mp ran
    rw [List.foldlM_cons] at last
    obtain ⟨after, stepped, rest⟩ := Option.bind_eq_some_iff.mp last
    obtain rfl : after = s := by simpa using rest
    split at stepped
    next allowed =>
      rw [List.map_append, List.sum_append, List.map_singleton, List.sum_singleton]
      exact .tail (ih first) allowed stepped
    · cases stepped

end Run

end Transition
