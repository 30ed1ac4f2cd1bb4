import Mathlib.Algebra.Order.BigOperators.Group.Finset
import Mathlib.Data.Fin.Tuple.Sort
import Mathlib.Data.Fintype.Lattice

/-!
Selecting entries of a finite row: those at or above the `k`-th largest, and a shortest prefix whose mass reaches a
bound. What is not selected becomes the least element.
-/

namespace Selection

open Finset

/-! ### By rank -/

section rank
variable {α : Type*} [LinearOrder α] {n k : Nat} {row : Fin n → α}

/-- `v` is in the row, fewer than `k` entries are above it, and at least `k` are at or above it. -/
structure KthLargest (row : Fin n → α) (k : Nat) (v : α) : Prop where
  attained : ∃ i, row i = v
  few : #{i | v < row i} < k
  enough : k ≤ #{i | v ≤ row i}

omit [LinearOrder α] in
theorem card_comp (σ : Equiv.Perm (Fin n)) (p : α → Prop) [DecidablePred p] :
    #{i | p ((row ∘ σ) i)} = #{i | p (row i)} := by
  refine card_bij (fun i _ => σ i) ?_ (fun _ _ _ _ same => σ.injective same) ?_
  · intro i member
    simpa using member
  · intro i member
    exact ⟨σ.symm i, by simpa using member, σ.apply_symm_apply i⟩

theorem kthLargest_sorted {σ : Equiv.Perm (Fin n)} (sorted : Monotone (row ∘ σ)) (i : Fin n) (at? : n - k = i)
    (fits : k ≤ n) : KthLargest row k (row (σ i)) := by
  have below : (i : Nat) < #{j | (row ∘ σ) j ≤ row (σ i)} :=
    (Tuple.lt_card_le_iff_apply_le_of_monotone sorted).mpr le_rfl
  have under : ¬ (i : Nat) < #{j | (row ∘ σ) j < row (σ i)} := by
    rw [Tuple.lt_card_lt_iff_apply_lt_of_monotone sorted]
    exact lt_irrefl _
  rw [card_comp σ (· ≤ row (σ i))] at below
  rw [card_comp σ (· < row (σ i))] at under
  have whole : ∀ (p : Fin n → Prop) [DecidablePred p], #{j | p j} + #{j | ¬ p j} = n := by
    intro p _
    rw [card_filter_add_card_filter_not, card_univ, Fintype.card_fin]
  have above := whole fun j => row j ≤ row (σ i)
  have upward := whole fun j => row j < row (σ i)
  simp only [not_le] at above
  simp only [not_lt] at upward
  exact ⟨⟨σ i, rfl⟩, by omega, by omega⟩

end rank

/-! ### What a selection leaves -/

section thins
variable {ι α : Type*} [LinearOrder α] [OrderBot α] {row mid out : ι → α}

/-- Every entry of `out` is the row's or least, and a greatest entry of the row is kept. -/
structure Thins (row out : ι → α) : Prop where
  kept : ∀ i, out i = ⊥ ∨ out i = row i
  greatest : ∃ i, (∀ j, row j ≤ row i) ∧ out i = row i

theorem Thins.refl [Finite ι] [Nonempty ι] (row : ι → α) : Thins row row := by
  obtain ⟨i, greatest⟩ := Finite.exists_max row
  exact ⟨fun _ => .inr rfl, i, greatest, rfl⟩

theorem Thins.trans (first : Thins row mid) (second : Thins mid out) : Thins row out := by
  obtain ⟨i, top, keptTop⟩ := first.greatest
  obtain ⟨i', top', keptTop'⟩ := second.greatest
  have high : row i ≤ mid i' := by
    rw [← keptTop]
    exact top' i
  have same : mid i' = row i' := by
    rcases first.kept i' with least | same
    · rw [least, le_bot_iff] at high
      have flat : row i' ≤ ⊥ := high ▸ top i'
      rw [least, le_bot_iff.mp flat]
    · exact same
  refine ⟨fun j => ?_, i', fun j => (top j).trans (same ▸ high), keptTop'.trans same⟩
  rcases second.kept j with least | kept
  · exact .inl least
  · rw [kept]
    exact first.kept j

end thins

/-! ### By mass -/

section mass
variable {K : Type*} [AddCommMonoid K] {n m : Nat} {w : Fin n → K} {p : K}

/-- The mass of the first `m` entries. -/
def prefixMass (w : Fin n → K) (m : Nat) : K := ∑ i with i.val < m, w i

theorem prefixMass_zero (w : Fin n → K) : prefixMass w 0 = 0 := by simp [prefixMass]

theorem prefixMass_all (w : Fin n → K) : prefixMass w n = ∑ i, w i := by simp [prefixMass]

theorem prefixMass_succ (w : Fin n → K) (j : Fin n) : prefixMass w (j + 1) = prefixMass w j + w j := by
  have split : univ.filter (fun i : Fin n => i.val < j.val + 1) = insert j (univ.filter fun i => i.val < j.val) := by
    ext i
    rw [mem_insert, mem_filter, mem_filter, Fin.ext_iff]
    simp only [mem_univ, true_and]
    omega
  rw [prefixMass, split, sum_insert (by simp), add_comm, ← prefixMass]

variable [LinearOrder K]

/-- `m` is the length of the shortest prefix whose mass reaches `p`. -/
structure Shortest (w : Fin n → K) (p : K) (m : Nat) : Prop where
  reaches : p ≤ prefixMass w m
  least : ∀ m' < m, prefixMass w m' < p

theorem exists_shortest (total : p ≤ ∑ i, w i) : ∃ m ≤ n, Shortest w p m := by
  have some : ∃ m, p ≤ prefixMass w m := ⟨n, by rwa [prefixMass_all]⟩
  refine ⟨Nat.find some, Nat.find_min' some (by rwa [prefixMass_all]), Nat.find_spec some, ?_⟩
  intro m' less
  exact lt_of_not_ge (Nat.find_min some less)

theorem Shortest.pos (shortest : Shortest w p m) (positive : 0 < p) : 0 < m := by
  rcases Nat.eq_zero_or_pos m with rfl | some
  · have reaches := shortest.reaches
    rw [prefixMass_zero] at reaches
    exact absurd positive (not_lt.mpr reaches)
  · exact some

variable [IsOrderedAddMonoid K]

theorem prefixMass_mono (nonneg : ∀ i, 0 ≤ w i) {m m' : Nat} (le : m ≤ m') : prefixMass w m ≤ prefixMass w m' := by
  refine sum_le_sum_of_subset_of_nonneg ?_ fun i _ _ => nonneg i
  intro i member
  rw [mem_filter] at member ⊢
  exact ⟨member.1, member.2.trans_le le⟩

/-- An entry is in the shortest prefix just when the mass before it is below the bound. -/
theorem Shortest.prior_lt_iff (nonneg : ∀ i, 0 ≤ w i) (shortest : Shortest w p m) (j : Nat) :
    prefixMass w j < p ↔ j < m := by
  constructor
  · intro short
    by_contra past
    exact absurd (shortest.reaches.trans (prefixMass_mono nonneg (not_lt.mp past))) (not_le.mpr short)
  · exact shortest.least j

/-- Nothing outside the shortest prefix has mass where the bound is the whole. -/
theorem Shortest.zero_outside (shortest : Shortest w p m) (whole : p = ∑ i, w i) [IsCancelAdd K] (nonneg : ∀ i, 0 ≤ w i)
    (j : Fin n) (outside : m ≤ j) : w j = 0 := by
  refine le_antisymm ?_ (nonneg j)
  have upper : prefixMass w j + w j ≤ prefixMass w j := by
    calc prefixMass w j + w j = prefixMass w (j + 1) := (prefixMass_succ w j).symm
      _ ≤ prefixMass w n := prefixMass_mono nonneg j.isLt
      _ = p := by rw [prefixMass_all, whole]
      _ ≤ prefixMass w m := shortest.reaches
      _ ≤ prefixMass w j := prefixMass_mono nonneg outside
  exact le_of_add_le_add_left (a := prefixMass w j) (by rwa [add_zero])

end mass

end Selection
