import Mathlib.Tactic

/-!
Windows of an infinite read: `window f lo hi` lists `f lo, …, f (hi - 1)`. Buffers that grow,
shift and are cut at both ends are compared through the windows they show.
-/

namespace Mlxforge

variable {α β : Type}

def window (f : Nat → α) (lo hi : Nat) : List α := (List.range (hi - lo)).map fun i => f (lo + i)

@[simp] theorem window_length (f : Nat → α) (lo hi : Nat) : (window f lo hi).length = hi - lo := by
  simp [window]

theorem window_empty {f : Nat → α} {lo hi : Nat} (h : hi ≤ lo) : window f lo hi = [] := by
  simp [window, Nat.sub_eq_zero_of_le h]

@[simp] theorem window_self (f : Nat → α) (n : Nat) : window f n n = [] := window_empty (Nat.le_refl n)

@[simp] theorem window_getElem {f : Nat → α} {lo hi i : Nat} (h : i < (window f lo hi).length) :
    (window f lo hi)[i] = f (lo + i) := by
  simp [window]

theorem window_congr {f g : Nat → α} {lo hi : Nat} (h : ∀ t, lo ≤ t → t < hi → f t = g t) :
    window f lo hi = window g lo hi := by
  apply List.map_congr_left
  intro i hi'
  have : i < hi - lo := List.mem_range.mp hi'
  exact h (lo + i) (by omega) (by omega)

theorem window_append (f : Nat → α) {lo mid hi : Nat} (h : lo ≤ mid) (h' : mid ≤ hi) :
    window f lo mid ++ window f mid hi = window f lo hi := by
  apply List.ext_getElem
  · simp; omega
  · intro i h₁ h₂
    by_cases hi' : i < (window f lo mid).length
    · rw [List.getElem_append_left hi']; simp
    · rw [List.getElem_append_right (by omega)]
      simp only [window_length] at hi'
      simp only [window_getElem, window_length]
      congr 1
      omega

theorem window_succ (f : Nat → α) {lo hi : Nat} (h : lo ≤ hi) :
    window f lo (hi + 1) = window f lo hi ++ [f hi] := by
  rw [← window_append f h (Nat.le_succ hi)]
  simp [window]

/-- Reading through a shift is the window shifted. -/
theorem window_shift (f : Nat → α) (d lo hi : Nat) :
    window (fun t => f (t + d)) lo hi = window f (lo + d) (hi + d) := by
  simp only [window, Nat.add_sub_add_right]
  apply List.map_congr_left
  intro i _
  congr 1
  omega

theorem window_map (g : α → β) (f : Nat → α) (lo hi : Nat) :
    (window f lo hi).map g = window (fun t => g (f t)) lo hi := by
  simp [window]

theorem window_drop (f : Nat → α) (lo hi d : Nat) : (window f lo hi).drop d = window f (lo + d) hi := by
  apply List.ext_getElem
  · simp; omega
  · intro i h₁ h₂
    simp [Nat.add_assoc]

theorem window_take (f : Nat → α) {lo hi d : Nat} (h : lo + d ≤ hi) :
    (window f lo hi).take d = window f lo (lo + d) := by
  apply List.ext_getElem
  · simp; omega
  · intro i h₁ h₂
    simp

/-- The window of a list's own reads is the list. -/
theorem window_getD (xs : List α) (d : α) : window (fun t => xs.getD t d) 0 xs.length = xs := by
  apply List.ext_getElem
  · simp
  · intro i h₁ h₂
    simp [h₂]

/-- A window over blocks of `n` slots is the blocks' windows one after another. -/
theorem window_blocks (f : Nat → Nat → α) {n : Nat} (positive : 0 < n) (m : Nat) :
    window (fun t => f (t / n) (t % n)) 0 (m * n) =
      (List.range m).flatMap fun j => window (f j) 0 n := by
  induction m with
  | zero => simp
  | succ m ih =>
    have last : window (fun t => f (t / n) (t % n)) (m * n) (m * n + n) = window (f m) 0 n := by
      have shifted := window_shift (fun t => f (t / n) (t % n)) (m * n) 0 n
      rw [Nat.zero_add, Nat.add_comm n (m * n)] at shifted
      rw [← shifted]
      apply window_congr
      intro t _ below
      rw [Nat.add_mul_div_right t m positive, Nat.add_mul_mod_self_right, Nat.div_eq_of_lt below,
        Nat.mod_eq_of_lt below, Nat.zero_add]
    rw [Nat.succ_mul, ← window_append _ (Nat.zero_le (m * n)) (Nat.le_add_right _ n), ih, last,
      List.range_succ, List.flatMap_append]
    simp

/-- A buffer written behind position `n` shows its old window followed by the new slots, less
those the lower bound `lo` still cuts off. -/
theorem window_written {f g e : Nat → α} {lo n L : Nat}
    (old : ∀ t, t < n → g t = f t) (new : ∀ j, j < L → g (n + j) = e j) :
    window g lo (n + L) = window f lo n ++ (window e 0 L).drop (lo - n) := by
  rw [window_drop, Nat.zero_add]
  have tail : ∀ p, window e p L = window g (p + n) (L + n) := by
    intro p
    rw [← window_shift g n p L]
    exact window_congr fun t _ h => by rw [Nat.add_comm t n, new t h]
  rw [tail]
  by_cases h : lo ≤ n
  · rw [window_congr (f := f) (g := g) fun t _ h => (old t h).symm]
    rw [Nat.sub_eq_zero_of_le h, Nat.zero_add, Nat.add_comm L n]
    exact (window_append g h (by omega)).symm
  · rw [window_empty (f := f) (by omega), List.nil_append, Nat.sub_add_cancel (by omega),
      Nat.add_comm L n]

/-- The positions below `N` an interval keeps are one window. -/
theorem filter_range_window (f : Nat → α) (lo hi N : Nat) :
    ((List.range N).filter fun t => decide (t < hi) && decide (lo ≤ t)).map f = window f lo (min hi N) := by
  induction N with
  | zero => simp [window_empty]
  | succ N ih =>
    rw [List.range_succ, List.filter_append, List.map_append, ih]
    by_cases below : N < hi
    · rw [Nat.min_eq_right (Nat.le_of_lt below), Nat.min_eq_right below]
      by_cases above : lo ≤ N
      · rw [window_succ f above]
        simp [below, above]
      · rw [window_empty (by omega), window_empty (by omega)]
        simp [above]
    · rw [Nat.min_eq_left (by omega), Nat.min_eq_left (by omega)]
      simp [below]

end Mlxforge
