import Mlxforge.Model.SkinnyMma

/-!
Whichever kernel is picked, the product is computed.
-/

namespace Mlxforge

open Finset

variable {R : Type} [CommSemiring R]

/-- The shapes that are let in. -/
structure Admitted (x w : HalfTensor R) : Prop where
  weight : w.shape.length = 2
  wide : 128 ∣ w.dim 1
  rank : x.shape.length = 2 ∨ (x.shape.length = 3 ∧ x.dim 1 = 1)
  inner : x.dim (x.shape.length - 1) = w.dim 1

omit [CommSemiring R] in
theorem admitted_of_applies {x w : HalfTensor R} (applies : skinnyMatmulApplies x w = true) : Admitted x w := by
  rw [skinnyMatmulApplies] at applies
  split at applies
  · cases applies
  split at applies
  · cases applies
  rename_i weight
  split at applies
  · cases applies
  rename_i decode
  split at applies
  · cases applies
  rename_i rank
  split at applies
  · cases applies
  rename_i rows
  simp only [not_or, not_and, not_not, ne_eq] at weight decode rank rows
  refine ⟨weight.1, Nat.dvd_of_mod_eq_zero weight.2, ?_, rows.2⟩
  by_cases two : x.shape.length = 2
  · exact .inl two
  · exact .inr ⟨rank two, decode (rank two)⟩

/-- The operands that the kernels get. -/
def operands (x w : HalfTensor R) : Operands R := ⟨x.dim 0, w.dim 0, w.dim 1, x.data, w.data⟩

omit [CommSemiring R] in
theorem Admitted.fits {x w : HalfTensor R} (admitted : Admitted x w) : (operands x w).Fits := by
  obtain ⟨wtype, wshape, wdata, wsize⟩ := w
  obtain ⟨xtype, xshape, xdata, xsize⟩ := x
  obtain ⟨weight, wide, rank, inner⟩ := admitted
  simp only [HalfTensor.dim] at weight wide rank inner
  obtain ⟨o, d, rfl⟩ := List.length_eq_two.mp weight
  refine ⟨?_, ?_, wide⟩
  · obtain two | ⟨three, decode⟩ := rank
    · obtain ⟨m, k, rfl⟩ := List.length_eq_two.mp two
      obtain rfl : k = d := inner
      simpa [operands, HalfTensor.dim] using xsize
    · obtain ⟨m, one, k, rfl⟩ := List.length_eq_three.mp three
      obtain rfl : one = 1 := decode
      obtain rfl : k = d := inner
      simpa [operands, HalfTensor.dim] using xsize
  · simpa [operands, HalfTensor.dim] using wsize

/-- The columns of a kernel that owns one or two of them. -/
theorem columns_filled {n : Nat} {kernel : Nat → Except KernelFault (List (Nat × R))} {a : Operands R} (owned : Nat → List Nat)
    (each : ∀ i < n, ∃ stores, kernel i = .ok stores ∧ a.Exact stores ∧
      ∀ m < a.M, ∀ o ∈ owned i, (m * a.O + o, a.dotRow m o) ∈ stores)
    (all : ∀ o < a.O, ∃ i < n, o ∈ owned i) :
    ∃ stores, (List.range n).mapM kernel = .ok stores ∧ a.Exact stores.flatten ∧
      ∀ m < a.M, ∀ o < a.O, (m * a.O + o, a.dotRow m o) ∈ stores.flatten := by
  obtain ⟨parts, run, related⟩ := mapM_forall₂ fun i (mem : i ∈ List.range n) => each i (List.mem_range.mp mem)
  refine ⟨parts, run, Operands.exact_flatten related, fun m row o col => ?_⟩
  obtain ⟨i, below, owns⟩ := all o col
  obtain ⟨stores, listed, _, filled⟩ := exists_of_forall₂_left related (List.mem_range.mpr below)
  exact List.mem_flatten.mpr ⟨stores, listed, filled m row o owns⟩

theorem oneCol_filled {a : Operands R} (fits : a.Fits) :
    ∃ stores, (List.range a.O).mapM (oneCol a) = .ok stores ∧ a.Exact stores.flatten ∧
      ∀ m < a.M, ∀ o < a.O, (m * a.O + o, a.dotRow m o) ∈ stores.flatten := by
  refine columns_filled (fun o => [o]) (fun o col => ⟨_, oneCol_ok fits col, ?_, ?_⟩) fun o col => ⟨o, col, by simp⟩
  · intro s mem
    obtain ⟨m, row, rfl⟩ := List.mem_map.mp mem
    exact ⟨m, List.mem_range.mp row, o, col, rfl⟩
  · intro m row o' owns
    obtain rfl := List.mem_singleton.mp owns
    exact List.mem_map_of_mem (List.mem_range.mpr row)

theorem twoCol_filled {a : Operands R} (fits : a.Fits) :
    ∃ stores, (List.range ((a.O + 1) / 2)).mapM (twoCol a) = .ok stores ∧ a.Exact stores.flatten ∧
      ∀ m < a.M, ∀ o < a.O, (m * a.O + o, a.dotRow m o) ∈ stores.flatten := by
  refine columns_filled (fun pair => if pair * 2 + 1 < a.O then [pair * 2, pair * 2 + 1] else [pair * 2])
    (fun pair below => ⟨_, twoCol_ok fits (by omega), ?_, ?_⟩) fun o col => ⟨o / 2, by omega, ?_⟩
  · intro s mem
    obtain ⟨m, row, mem⟩ := List.mem_flatMap.mp mem
    obtain rfl | mem := List.mem_cons.mp mem
    · exact ⟨m, List.mem_range.mp row, pair * 2, by omega, rfl⟩
    · split at mem
      next second =>
        obtain rfl := List.mem_singleton.mp mem
        exact ⟨m, List.mem_range.mp row, pair * 2 + 1, second, rfl⟩
      · cases mem
  · intro m row o owns
    refine List.mem_flatMap.mpr ⟨m, List.mem_range.mpr row, ?_⟩
    split at owns
    next second =>
      rw [if_pos second]
      simp only [List.mem_cons, List.not_mem_nil, or_false] at owns ⊢
      obtain rfl | rfl := owns
      · exact .inl rfl
      · exact .inr rfl
    · obtain rfl := List.mem_singleton.mp owns
      exact List.mem_cons_self
  · split <;> simp only [List.mem_cons, List.not_mem_nil, or_false] <;> omega

omit [CommSemiring R] in
/-- The template arguments that are picked suit the operands. -/
theorem suits_launch {a : Operands R} (fits : a.Fits) (columns : 8 ≤ a.O) :
    TileArgs.Suits ⟨(a.M + 7) / 8, if a.D % 256 = 0 then 256 else 128, 4, 8⟩ a := by
  refine ⟨?_, columns, ?_, ?_, ?_, Nat.succ_pos _⟩
  · simp only
    omega
  · simp only
    split
    next even => exact Nat.dvd_of_mod_eq_zero even
    · exact fits.wide
  · simp only
    split <;> decide
  · simp only
    split <;> decide

/-- Each kernel on its grid. -/
theorem launch_computes {a : Operands R} (fits : a.Fits) (big : Bool) :
    ∃ stores, launch a big = .ok stores ∧ a.Exact stores ∧ ∀ m < a.M, ∀ o < a.O, (m * a.O + o, a.dotRow m o) ∈ stores := by
  by_cases few : a.M ≤ 4
  · obtain ⟨columns, run, exact, filled⟩ := oneCol_filled fits
    refine ⟨columns.flatten, ?_, exact, filled⟩
    rw [launch, if_pos few, run]
    rfl
  · by_cases tiled : 8 ≤ a.O ∧ big = true
    · obtain ⟨stores, run, exact, filled⟩ := mma_computes fits (suits_launch fits tiled.1) (((a.O + 7) / 8 + 8 - 1) / 8)
        (by simp only; omega)
      refine ⟨stores, ?_, exact, filled⟩
      rw [launch, if_neg few, if_pos tiled]
      exact run
    · obtain ⟨pairs, run, exact, filled⟩ := twoCol_filled fits
      refine ⟨pairs.flatten, ?_, exact, filled⟩
      rw [launch, if_neg few, if_neg tiled, run]
      rfl

/-- Every output is stored, every store is the full dot product at its place, and no read leaves the arrays. -/
theorem skinnyMatmul_computes {x w : HalfTensor R} (applies : skinnyMatmulApplies x w = true) :
    ∃ out, skinnyMatmul x w = .ok out ∧ out.shape.prod = x.dim 0 * w.dim 0 ∧
      (∀ m < x.dim 0, ∀ o < w.dim 0, ∃ v, (m * w.dim 0 + o, v) ∈ out.stores) ∧
      ∀ i v, (i, v) ∈ out.stores → ∃ m < x.dim 0, ∃ o < w.dim 0, i = m * w.dim 0 + o ∧
        v = ∑ k ∈ range (w.dim 1), x.data.getD (m * w.dim 1 + k) 0 * w.data.getD (o * w.dim 1 + k) 0 := by
  have fits := (admitted_of_applies applies).fits
  obtain ⟨stores, run, exact, filled⟩ := launch_computes fits (isBigWeight w)
  refine ⟨⟨if x.shape.length = 3 then [x.dim 0, 1, w.dim 0] else [x.dim 0, w.dim 0], stores⟩, ?_, ?_, ?_, ?_⟩
  · rw [operands] at run
    rw [skinnyMatmul, run]
    rfl
  · split <;> simp
  · intro m row o col
    exact ⟨_, filled m row o col⟩
  · intro i v mem
    obtain ⟨m, row, o, col, same⟩ := exact _ mem
    obtain ⟨rfl, rfl⟩ := Prod.mk.inj same
    exact ⟨m, row, o, col, rfl, rfl⟩

/-- A matrix of one value. -/
def constantTensor (rows cols : Nat) (v : ℤ) : HalfTensor ℤ :=
  ⟨.float16, [rows, cols], List.replicate (rows * cols) v, by simp⟩

/-- Two rows and three output columns. -/
theorem skinnyMatmul_computes_twoByThree :
    ∃ out, skinnyMatmul (constantTensor 2 128 1) (constantTensor 3 128 2) = .ok out ∧ out.shape.prod = 6 ∧
      ∃ v, (5, v) ∈ out.stores := by
  obtain ⟨out, run, shape, filled, _⟩ := skinnyMatmul_computes (x := constantTensor 2 128 1) (w := constantTensor 3 128 2)
    (by decide)
  exact ⟨out, run, shape, filled 1 (by decide) 2 (by decide)⟩

end Mlxforge
