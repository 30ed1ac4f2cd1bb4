import Mathlib.Algebra.BigOperators.Intervals
import Mathlib.Tactic

/-!
Loops `for (i = start; i < stop; i += step)` and the sums over them, split over lanes and over blocks.
-/

namespace Mlxforge

/-- The values of `i` in `for (i = start; i < stop; i += step)`. -/
def steps (start stop step : Nat) : List Nat := (List.range ((stop - start + (step - 1)) / step)).map fun t => start + step * t

section Steps

variable {n q lane : Nat}

/-- Lane `lane` of `n` visits every `n`-th place. -/
theorem steps_lane (below : lane < n) : steps lane (n * q) n = (List.range q).map fun t => lane + n * t := by
  have count : (n * q - lane + (n - 1)) / n = q := by
    cases q with
    | zero => rw [Nat.mul_zero, Nat.zero_sub, Nat.zero_add, Nat.div_eq_of_lt (by omega)]
    | succ q =>
      have split : n * (q + 1) - lane + (n - 1) = n * (q + 1) + (n - 1 - lane) := by
        have : n ≤ n * (q + 1) := Nat.le_mul_of_pos_right n (Nat.succ_pos q)
        omega
      rw [split, Nat.mul_add_div (by omega), Nat.div_eq_of_lt (by omega), Nat.add_zero]
  rw [steps, count]

theorem steps_zero (positive : 0 < n) : steps 0 (n * q) n = (List.range q).map fun t => n * t := by
  rw [steps_lane positive]
  simp only [Nat.zero_add]

theorem lt_of_mem_steps {start stop step i : Nat} (positive : 0 < step) (mem : i ∈ steps start stop step) : i < stop := by
  obtain ⟨t, visited, rfl⟩ := List.mem_map.mp mem
  have room := (Nat.le_div_iff_mul_le positive).mp (Nat.succ_le_of_lt (List.mem_range.mp visited))
  rw [Nat.succ_mul, Nat.mul_comm] at room
  omega

/-- Every place is visited by the lane of its remainder. -/
theorem mem_steps_mod {stop step i : Nat} (positive : 0 < step) (below : i < stop) : i ∈ steps (i % step) stop step := by
  have split := Nat.mod_add_div i step
  refine List.mem_map.mpr ⟨i / step, List.mem_range.mpr ?_, split⟩
  refine Nat.lt_of_succ_le ((Nat.le_div_iff_mul_le positive).mpr ?_)
  rw [Nat.succ_mul, Nat.mul_comm]
  omega

end Steps

section Sums

variable {R : Type*} [AddCommMonoid R] {n q : Nat}

open Finset

theorem list_sum_range (f : Nat → R) (n : Nat) : ((List.range n).map f).sum = ∑ k ∈ range n, f k := rfl

/-- A sum by blocks of `n`. -/
theorem sum_blocks (n q : Nat) (f : Nat → R) : ∑ t ∈ range q, ∑ i ∈ range n, f (n * t + i) = ∑ k ∈ range (n * q), f k := by
  induction q with
  | zero => simp
  | succ q ih => rw [sum_range_succ, ih, Nat.mul_succ, sum_range_add]

/-- A sum over the lanes, each adding up its own places. -/
theorem sum_lanes (n q : Nat) (f : Nat → R) :
    ∑ lane ∈ range n, ((steps lane (n * q) n).map f).sum = ∑ k ∈ range (n * q), f k := by
  rw [← sum_blocks, sum_comm]
  refine sum_congr rfl fun lane mem => ?_
  rw [steps_lane (mem_range.mp mem), List.map_map, list_sum_range]
  exact sum_congr rfl fun t _ => congrArg f (Nat.add_comm _ _)

end Sums

section Accumulate

variable {ε α β A : Type} [AddMonoid A]

/-- A loop whose every step adds a term to what its accumulators stand for adds up all the terms. -/
theorem foldlM_accumulate (held : A → β) (term : α → A) {step : β → α → Except ε β} {xs : List α}
    (each : ∀ s, ∀ a ∈ xs, step (held s) a = .ok (held (s + term a))) (s : A) :
    xs.foldlM step (held s) = .ok (held (s + (xs.map term).sum)) := by
  induction xs generalizing s with
  | nil =>
    rw [List.map_nil, List.sum_nil, add_zero]
    rfl
  | cons x xs ih =>
    rw [List.foldlM_cons, each s x List.mem_cons_self, List.map_cons, List.sum_cons, ← add_assoc]
    exact ih (fun s a mem => each s a (List.mem_cons_of_mem _ mem)) _

end Accumulate

end Mlxforge
