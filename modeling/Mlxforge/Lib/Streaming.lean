import Mlxforge.Lib.Window

/-!
A step function run along an infinite stream: the state before each position and what the step
emits there. A run cut in two is one run, and a prefix the step ignores can be dropped.
-/

namespace Mlxforge.Streaming

variable {α α' σ β : Type}

section runs
variable (step : α → σ → σ × β)

/-- The state before position `n` of the stream. -/
def stateAt (s : σ) (u : Nat → α) : Nat → σ
  | 0 => s
  | n + 1 => (step (u n) (stateAt s u n)).1

def outputAt (s : σ) (u : Nat → α) (n : Nat) : β := (step (u n) (stateAt step s u n)).2

@[simp] theorem stateAt_zero (s : σ) (u : Nat → α) : stateAt step s u 0 = s := rfl

theorem stateAt_succ (s : σ) (u : Nat → α) (n : Nat) :
    stateAt step s u (n + 1) = (step (u n) (stateAt step s u n)).1 := rfl

theorem stateAt_add (s : σ) (u : Nat → α) (m n : Nat) :
    stateAt step s u (m + n) = stateAt step (stateAt step s u m) (fun t => u (m + t)) n := by
  induction n with
  | zero => rfl
  | succ n ih => rw [← Nat.add_assoc, stateAt_succ, stateAt_succ, ih]

theorem outputAt_add (s : σ) (u : Nat → α) (m n : Nat) :
    outputAt step s u (m + n) = outputAt step (stateAt step s u m) (fun t => u (m + t)) n := by
  rw [outputAt, outputAt, stateAt_add]

theorem stateAt_idle {s : σ} {u : Nat → α} {n : Nat} (idle : ∀ t < n, (step (u t) s).1 = s) :
    stateAt step s u n = s := by
  induction n with
  | zero => rfl
  | succ n ih =>
    rw [stateAt_succ, ih fun t below => idle t (Nat.lt_succ_of_lt below)]
    exact idle n (Nat.lt_succ_self n)

variable {step} {step' : α' → σ → σ × β} {s : σ} {u : Nat → α} {u' : Nat → α'} {n : Nat}

theorem stateAt_congr (same : ∀ t < n, step (u t) = step' (u' t)) : stateAt step s u n = stateAt step' s u' n := by
  induction n with
  | zero => rfl
  | succ n ih =>
    rw [stateAt_succ, stateAt_succ, ih fun t below => same t (Nat.lt_succ_of_lt below), same n (Nat.lt_succ_self n)]

theorem outputAt_congr (same : ∀ t ≤ n, step (u t) = step' (u' t)) : outputAt step s u n = outputAt step' s u' n := by
  rw [outputAt, outputAt, stateAt_congr fun t below => same t (Nat.le_of_lt below), same n (Nat.le_refl n)]

end runs

/-! ### Delayed streams -/

/-- The stream behind `w` copies of `z`: what a sliding window of the last `w` items reads. -/
def delayed (z : α) (w : Nat) (u : Nat → α) (p : Nat) : α := if p < w then z else u (p - w)

theorem delayed_of_lt (z : α) {w p : Nat} (u : Nat → α) (below : p < w) : delayed z w u p = z := if_pos below

theorem delayed_add (z : α) (w : Nat) (u : Nat → α) (p : Nat) : delayed z w u (w + p) = u p := by
  rw [delayed, if_neg (by omega), Nat.add_sub_cancel_left]

/-- Leading items equal to the filler do not move the windows behind them. -/
theorem delayed_shift {z : α} {w d : Nat} {u : Nat → α} (blank : ∀ t < d, u t = z) (p : Nat) :
    delayed z w u (d + p) = delayed z w (fun t => u (d + t)) p := by
  by_cases early : p < w
  · rw [delayed_of_lt z _ early]
    by_cases first : d + p < w
    · exact delayed_of_lt z u first
    · rw [delayed, if_neg first]
      exact blank _ (by omega)
  · rw [delayed, delayed, if_neg (by omega), if_neg early]
    congr 1
    omega

theorem window_delayed_zero (z : α) (w : Nat) (u : Nat → α) : window (delayed z w u) 0 w = List.replicate w z := by
  rw [window_congr (g := fun _ => z) fun t _ below => delayed_of_lt z u below]
  simp [window]

end Mlxforge.Streaming
