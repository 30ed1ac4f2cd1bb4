import Mlxforge.Lib.Rows
import Mlxforge.Model.SkinnyMatmul

/-!
The kernels that own one or two output columns compute them.
-/

namespace Mlxforge

open Finset

variable {R : Type}

/-! ### Reads inside the arrays -/

theorem load_ok [Zero R] {a : List R} {i : Nat} (inside : i < a.length) : load a i = .ok (a.getD i 0) := by
  simp [load, inside]

/-- The four elements at place `k`. -/
def quad (f : Nat → R) (k : Nat) : Half4 R := ⟨f (4 * k), f (4 * k + 1), f (4 * k + 2), f (4 * k + 3)⟩

theorem loadHalf4_ok [Zero R] {a : List R} {base k : Nat} (inside : base + 4 * k + 3 < a.length) :
    loadHalf4 a base k = .ok (quad (fun i => a.getD (base + i) 0) k) := by
  rw [loadHalf4, load_ok (by omega), load_ok (by omega), load_ok (by omega), load_ok (by omega)]
  rfl

namespace Operands

variable [CommSemiring R]

/-- An element of a row of `x`, and one of a row of `w`. -/
def xAt (a : Operands R) (m k : Nat) : R := a.x.getD (m * a.D + k) 0

def wAt (a : Operands R) (o k : Nat) : R := a.w.getD (o * a.D + k) 0

/-- The dot product of row `m` of `x` and row `o` of `w`. -/
def dotRow (a : Operands R) (m o : Nat) : R := ∑ k ∈ range a.D, a.xAt m k * a.wAt o k

/-- The arrays have the sizes that the kernels compute with, and the width is a multiple of 128. -/
structure Fits (a : Operands R) : Prop where
  x : a.x.length = a.M * a.D
  w : a.w.length = a.O * a.D
  wide : 128 ∣ a.D

/-- The stores of a kernel are dot products, at their places. -/
def Exact (a : Operands R) (stores : List (Nat × R)) : Prop :=
  ∀ s ∈ stores, ∃ m < a.M, ∃ o < a.O, s = (m * a.O + o, a.dotRow m o)

variable {a : Operands R}

/-- Runs one after the other, each of dot products. -/
theorem exact_flatten {α : Type} {xs : List α} {parts : List (List (Nat × R))} {P : α → List (Nat × R) → Prop}
    (each : List.Forall₂ (fun i stores => a.Exact stores ∧ P i stores) xs parts) : a.Exact parts.flatten := by
  intro s mem
  obtain ⟨stores, listed, mem⟩ := List.mem_flatten.mp mem
  obtain ⟨_, _, exact, _⟩ := exists_of_forall₂_right each listed
  exact exact s mem

theorem loadHalf4_x (fits : a.Fits) {m k : Nat} (row : m < a.M) (col : k < a.D / 4) :
    loadHalf4 a.x (m * a.D) k = .ok (quad (a.xAt m) k) := by
  refine loadHalf4_ok ?_
  have := digit_lt (x := 4 * k + 3) row (by omega : 4 * k + 3 < a.D)
  rw [fits.x]
  omega

theorem loadHalf4_w (fits : a.Fits) {o k : Nat} (row : o < a.O) (col : k < a.D / 4) :
    loadHalf4 a.w (o * a.D) k = .ok (quad (a.wAt o) k) := by
  refine loadHalf4_ok ?_
  have := digit_lt (x := 4 * k + 3) row (by omega : 4 * k + 3 < a.D)
  rw [fits.w]
  omega

end Operands

/-! ### The lanes -/

section Lanes

variable [CommSemiring R] {a : Operands R} {cols : List Nat} {lane : Nat}

theorem quad_dot (f g : Nat → R) (k : Nat) : (quad f k).dot (quad g k) = ∑ i ∈ range 4, f (4 * k + i) * g (4 * k + i) := by
  simp only [Half4.dot, quad, sum_range_succ, sum_range_zero, zero_add, Nat.add_zero]

/-- What a lane adds up for row `m` and output column `o`. -/
def laneSum (a : Operands R) (lane m o : Nat) : R :=
  ((steps lane (a.D / 4) 32).map fun k => (quad (a.wAt o) k).dot (quad (a.xAt m) k)).sum

theorem laneSums_ok (fits : a.Fits) (inside : ∀ o ∈ cols, o < a.O) :
    laneSums a cols lane = .ok ((List.range a.M).map fun m => cols.map fun o => laneSum a lane m o) := by
  let held : (Nat → Nat → R) → List (List R) := fun s => (List.range a.M).map fun m => cols.map (s m)
  let term : Nat → Nat → Nat → R := fun k m o => (quad (a.wAt o) k).dot (quad (a.xAt m) k)
  rw [laneSums]
  refine (foldlM_accumulate held term ?_ 0).trans (congrArg Except.ok ?_)
  · intro s k mem
    have below := lt_of_mem_steps (by decide) mem
    have weights : cols.mapM (fun o => loadHalf4 a.w (o * a.D) k) = .ok (cols.map fun o => quad (a.wAt o) k) :=
      mapM_ok fun o mem => Operands.loadHalf4_w fits (inside o mem) below
    rw [weights, ok_bind]
    refine mapM_ok fun m mem => ?_
    have row := List.mem_range.mp mem
    rw [Operands.loadHalf4_x fits row below, ok_bind]
    have accumulators : (held s).getD m [] = cols.map (s m) := by
      simp only [held, List.getD_eq_getElem?_getD, List.getElem?_map, List.getElem?_range row]
      rfl
    rw [accumulators, List.zipWith_map, List.zipWith_self]
    rfl
  · rw [zero_add]
    refine List.map_congr_left fun m _ => List.map_congr_left fun o _ => ?_
    rw [Pi.list_sum_apply, Pi.list_sum_apply, List.map_map, List.map_map]
    rfl

/-- The lanes together add up the dot product. -/
theorem sum_laneSum (fits : a.Fits) (m o : Nat) : ∑ lane ∈ range 32, laneSum a lane m o = a.dotRow m o := by
  obtain ⟨q, wide⟩ := fits.wide
  have quads : a.D / 4 = 32 * q := by omega
  have whole := sum_blocks 4 (32 * q) fun k => a.xAt m k * a.wAt o k
  simp only [laneSum, quads]
  rw [sum_lanes, Operands.dotRow, show a.D = 4 * (32 * q) by omega, ← whole]
  refine sum_congr rfl fun k _ => ?_
  rw [quad_dot]
  exact sum_congr rfl fun i _ => mul_comm _ _

theorem lanes_ok (fits : a.Fits) (inside : ∀ o ∈ cols, o < a.O) :
    (List.range 32).mapM (laneSums a cols) =
      .ok ((List.range 32).map fun lane => (List.range a.M).map fun m => cols.map fun o => laneSum a lane m o) :=
  mapM_ok fun _ _ => laneSums_ok fits inside

theorem simdSum_lanes (fits : a.Fits) {m c o : Nat} (row : m < a.M) (col : cols[c]? = some o) :
    simdSum ((List.range 32).map fun lane => (List.range a.M).map fun m => cols.map fun o => laneSum a lane m o) m c =
      a.dotRow m o := by
  rw [← sum_laneSum fits, simdSum, List.map_map, ← list_sum_range]
  refine congrArg List.sum (List.map_congr_left fun lane _ => ?_)
  simp only [Function.comp_apply, List.getD_eq_getElem?_getD, List.getElem?_map, List.getElem?_range row, Option.map_some,
    Option.getD_some, col]

/-- A simdgroup of one column. -/
theorem oneCol_ok (fits : a.Fits) {o : Nat} (inside : o < a.O) :
    oneCol a o = .ok ((List.range a.M).map fun m => (m * a.O + o, a.dotRow m o)) := by
  rw [oneCol, lanes_ok fits (by simpa using inside), ok_bind]
  refine congrArg Except.ok (List.map_congr_left fun m mem => ?_)
  rw [simdSum_lanes fits (List.mem_range.mp mem) rfl]

/-- A simdgroup of a pair of columns; the second one may lie past the last. -/
theorem twoCol_ok (fits : a.Fits) {pair : Nat} (inside : pair * 2 < a.O) :
    twoCol a pair = .ok ((List.range a.M).flatMap fun m =>
      (m * a.O + pair * 2, a.dotRow m (pair * 2)) ::
        if pair * 2 + 1 < a.O then [(m * a.O + (pair * 2 + 1), a.dotRow m (pair * 2 + 1))] else []) := by
  have cols : ∀ o ∈ [pair * 2, if pair * 2 + 1 < a.O then pair * 2 + 1 else pair * 2], o < a.O := by
    intro o mem
    simp only [List.mem_cons, List.not_mem_nil, or_false] at mem
    obtain rfl | rfl := mem
    · exact inside
    · split <;> omega
  rw [twoCol, lanes_ok fits cols, ok_bind]
  refine congrArg Except.ok (List.flatMap_congr fun m mem => ?_)
  have row := List.mem_range.mp mem
  rw [simdSum_lanes fits row rfl]
  split
  next second => rw [simdSum_lanes fits row (o := pair * 2 + 1) rfl]
  · rfl

end Lanes

end Mlxforge
