import Mathlib.Tactic

/-!
Arrays of any rank with their elements in row-major order, and the operations that move elements: reshaping, permuting the
axes, broadcasting and stacking.
-/

namespace Mlxforge

/-! ### Index lists -/

/-- The place of an index list in row-major order. -/
def ravel : (shape index : List Nat) → Nat
  | _ :: shape, i :: index => i * shape.prod + ravel shape index
  | _, _ => 0

/-- The index list of a place. -/
def unravel : (shape : List Nat) → Nat → List Nat
  | [], _ => []
  | _ :: shape, n => n / shape.prod :: unravel shape (n % shape.prod)

/-- Every index is below its axis. -/
def Inside (shape index : List Nat) : Prop := List.Forall₂ (fun d i => i < d) shape index

instance (shape index : List Nat) : Decidable (Inside shape index) :=
  inferInstanceAs (Decidable (List.Forall₂ (fun d i => i < d) shape index))

theorem inside_cons {d i : Nat} {shape index : List Nat} :
    Inside (d :: shape) (i :: index) ↔ i < d ∧ Inside shape index := List.forall₂_cons

theorem ravel_lt {shape index : List Nat} (inside : Inside shape index) : ravel shape index < shape.prod := by
  induction inside with
  | nil => simp [ravel]
  | @cons d i shape index below _ ih =>
    rw [ravel, List.prod_cons]
    have room : (i + 1) * shape.prod ≤ d * shape.prod := Nat.mul_le_mul_right _ below
    rw [Nat.succ_mul] at room
    omega

theorem unravel_ravel {shape index : List Nat} (inside : Inside shape index) : unravel shape (ravel shape index) = index := by
  induction inside with
  | nil => rfl
  | @cons d i shape index below rest ih =>
    have small := ravel_lt rest
    have positive : 0 < shape.prod := by omega
    rw [ravel, unravel, Nat.mul_comm, Nat.mul_add_div positive, Nat.mul_add_mod, Nat.div_eq_of_lt small,
      Nat.mod_eq_of_lt small, ih, Nat.add_zero]

theorem inside_unravel {shape : List Nat} {n : Nat} (below : n < shape.prod) : Inside shape (unravel shape n) := by
  induction shape generalizing n with
  | nil => exact .nil
  | cons d shape ih =>
    rw [List.prod_cons] at below
    have positive : 0 < shape.prod := Nat.pos_of_lt_mul_left below
    exact .cons (Nat.div_lt_of_lt_mul (by rwa [Nat.mul_comm])) (ih (Nat.mod_lt _ positive))

theorem ravel_unravel {shape : List Nat} {n : Nat} (below : n < shape.prod) : ravel shape (unravel shape n) = n := by
  induction shape generalizing n with
  | nil =>
    simp only [List.prod_nil, Nat.lt_one_iff] at below
    rw [below]
    rfl
  | cons d shape ih =>
    rw [List.prod_cons] at below
    have positive : 0 < shape.prod := Nat.pos_of_lt_mul_left below
    rw [unravel, ravel, ih (Nat.mod_lt _ positive), Nat.mul_comm, Nat.div_add_mod]

/-- All index lists, in row-major order: the nested loops over the axes. -/
def indices : (shape : List Nat) → List (List Nat)
  | [] => [[]]
  | d :: shape => (List.range d).flatMap fun i => (indices shape).map (i :: ·)

theorem indices_eq_map (shape : List Nat) : indices shape = (List.range shape.prod).map (unravel shape) := by
  induction shape with
  | nil => rfl
  | cons d shape ih =>
    rw [indices, List.prod_cons, ih]
    induction d with
    | zero => simp
    | succ d rows =>
      rw [List.range_succ, List.flatMap_append, rows, Nat.succ_mul, List.range_add, List.map_append, List.flatMap_singleton,
        List.map_map, List.map_map]
      congr 1
      refine List.map_congr_left fun n mem => ?_
      have below := List.mem_range.mp mem
      have positive : 0 < shape.prod := by omega
      simp only [Function.comp_apply, unravel]
      rw [Nat.mul_comm, Nat.mul_add_div positive, Nat.mul_add_mod, Nat.div_eq_of_lt below, Nat.mod_eq_of_lt below, Nat.add_zero]

theorem length_indices (shape : List Nat) : (indices shape).length = shape.prod := by
  rw [indices_eq_map, List.length_map, List.length_range]

theorem getElem?_indices {shape : List Nat} {n : Nat} (below : n < shape.prod) :
    (indices shape)[n]? = some (unravel shape n) := by
  rw [indices_eq_map, List.getElem?_map, List.getElem?_range below, Option.map_some]

theorem mem_indices {shape index : List Nat} : index ∈ indices shape ↔ Inside shape index := by
  rw [indices_eq_map, List.mem_map]
  constructor
  · rintro ⟨n, mem, rfl⟩
    exact inside_unravel (List.mem_range.mp mem)
  · intro inside
    exact ⟨_, List.mem_range.mpr (ravel_lt inside), unravel_ravel inside⟩

theorem nodup_indices (shape : List Nat) : (indices shape).Nodup := by
  rw [indices_eq_map]
  refine List.Nodup.map_on ?_ List.nodup_range
  intro a left b right same
  rw [← ravel_unravel (List.mem_range.mp left), ← ravel_unravel (List.mem_range.mp right), same]

/-! ### Arrays -/

/-- An array; `flat` holds its elements in row-major order. -/
structure NdArray (α : Type*) where
  shape : List Nat
  flat : Nat → α

namespace NdArray

variable {α β γ : Type*}

def get (a : NdArray α) (index : List Nat) : α := a.flat (ravel a.shape index)

/-- The length of an axis. -/
def dim (a : NdArray α) (axis : Nat) : Nat := a.shape.getD axis 1

def map (f : α → β) (a : NdArray α) : NdArray β := ⟨a.shape, fun n => f (a.flat n)⟩

/-- The same elements under another shape; the real message goes on with the sizes. -/
def reshape (a : NdArray α) (shape : List Nat) : Except String (NdArray α) :=
  if a.shape.prod = shape.prod then .ok ⟨shape, a.flat⟩ else .error "[reshape] Cannot reshape array"

/-- Axis `k` of the result is axis `axes[k]` of `a`. -/
def transpose (a : NdArray α) (axes : List Nat) : NdArray α :=
  let shape := axes.map a.dim
  ⟨shape, fun n => a.get ((List.range a.shape.length).map fun axis => (unravel shape n).getD (axes.idxOf axis) 0)⟩

/-- An axis of length one repeats. -/
def broadcastTo (a : NdArray α) (shape : List Nat) : NdArray α :=
  ⟨shape, fun n => a.get (List.zipWith (fun d i => if d = 1 then 0 else i) a.shape (unravel shape n))⟩

/-- An elementwise operation; the right operand is broadcast to the left one. -/
def zip (f : α → β → γ) (a : NdArray α) (b : NdArray β) : NdArray γ :=
  ⟨a.shape, fun n => f (a.flat n) ((b.broadcastTo a.shape).flat n)⟩

/-- `b` below `a`, along the first axis. -/
def stack (a b : NdArray α) : NdArray α :=
  ⟨(a.dim 0 + b.dim 0) :: a.shape.tail, fun n => if n < a.shape.prod then a.flat n else b.flat (n - a.shape.prod)⟩

/-- `concatenate(arrays, 0)`. -/
def concatenate : List (NdArray α) → Except String (NdArray α)
  | [] => .error "[concatenate] No arrays provided for concatenation"
  | [a] => .ok a
  | a :: rest => do
    let below ← concatenate rest
    return a.stack below

/-- `tile(a, {times, 1})`. -/
def tile (a : NdArray α) (times : Nat) : NdArray α :=
  ⟨(times * a.dim 0) :: a.shape.tail, fun n => a.flat (n % a.shape.prod)⟩

/-- `concatenate({a, b}, 1)` of two matrices. -/
def beside (a b : NdArray α) : NdArray α :=
  ⟨[a.dim 0, a.dim 1 + b.dim 1], fun n =>
    let i := n / (a.dim 1 + b.dim 1)
    let j := n % (a.dim 1 + b.dim 1)
    if j < a.dim 1 then a.get [i, j] else b.get [i, j - a.dim 1]⟩

theorem reshape_ok {a : NdArray α} {shape : List Nat} (same : a.shape.prod = shape.prod) :
    a.reshape shape = .ok ⟨shape, a.flat⟩ := if_pos same

theorem get_map (f : α → β) (a : NdArray α) (index : List Nat) : (a.map f).get index = f (a.get index) := rfl

/-- An element of a permuted array, by the index list of the result. -/
theorem get_transpose {a : NdArray α} {axes index : List Nat} (inside : Inside (axes.map a.dim) index) :
    (a.transpose axes).get index = a.get ((List.range a.shape.length).map fun axis => index.getD (axes.idxOf axis) 0) := by
  change a.get _ = _
  rw [transpose, unravel_ravel inside]

/-- An index below its axis is read as it is. -/
theorem broadcastIndex {d i : Nat} (below : i < d) : (if d = 1 then 0 else i) = i := by
  split <;> omega

theorem get_broadcastTo {a : NdArray α} {shape index : List Nat} (inside : Inside shape index) :
    (a.broadcastTo shape).get index = a.get (List.zipWith (fun d i => if d = 1 then 0 else i) a.shape index) := by
  change a.get _ = _
  rw [broadcastTo, unravel_ravel inside]

theorem get_zip {f : α → β → γ} {a : NdArray α} {b : NdArray β} {index : List Nat} (inside : Inside a.shape index) :
    (a.zip f b).get index = f (a.get index) (b.get (List.zipWith (fun d i => if d = 1 then 0 else i) b.shape index)) := by
  rw [← get_broadcastTo inside]
  rfl

/-- An index list of the operand's own shape is read as it is. -/
theorem broadcastIndex_inside {shape index : List Nat} (inside : Inside shape index) :
    List.zipWith (fun d i => if d = 1 then 0 else i) shape index = index := by
  induction inside with
  | nil => rfl
  | cons below _ ih => rw [List.zipWith_cons_cons, broadcastIndex below, ih]

theorem get_zip_same {f : α → β → γ} {a : NdArray α} {b : NdArray β} {shape index : List Nat} (left : a.shape = shape)
    (right : b.shape = shape) (inside : Inside shape index) : (a.zip f b).get index = f (a.get index) (b.get index) := by
  rw [get_zip (by rwa [left]), right, broadcastIndex_inside inside]

theorem get_tile {a : NdArray α} {n w : Nat} (shape : a.shape = [n, w]) {times i r j : Nat} (row : r < n) (col : j < w) :
    (a.tile times).get [i * n + r, j] = a.get [r, j] := by
  have inside : ravel [n, w] [r, j] < [n, w].prod := ravel_lt (.cons row (.cons col .nil))
  simp only [ravel, List.prod_cons, List.prod_nil, Nat.mul_one, Nat.add_zero] at inside
  simp only [get, tile, shape, ravel, List.tail_cons, List.prod_cons, List.prod_nil, Nat.mul_one, Nat.add_zero]
  rw [show (i * n + r) * w + j = n * w * i + (r * w + j) by ring, Nat.mul_add_mod, Nat.mod_eq_of_lt inside]

theorem get_beside {a b : NdArray α} {i j : Nat} (below : j < a.dim 1 + b.dim 1) :
    (a.beside b).get [i, j] = if j < a.dim 1 then a.get [i, j] else b.get [i, j - a.dim 1] := by
  have positive : 0 < a.dim 1 + b.dim 1 := by omega
  simp only [get, beside, ravel, List.prod_cons, List.prod_nil, Nat.mul_one, Nat.add_zero]
  rw [Nat.mul_comm i, Nat.mul_add_div positive, Nat.mul_add_mod, Nat.div_eq_of_lt below, Nat.mod_eq_of_lt below, Nat.add_zero]

/-! ### Matrices one below the other -/

variable {a b : NdArray α} {n m w : Nat}

theorem shape_stack (shape : a.shape = [n, w]) (below : b.shape = [m, w]) : (a.stack b).shape = [n + m, w] := by
  simp [stack, dim, shape, below]

theorem get_stack_left (shape : a.shape = [n, w]) {r j : Nat} (row : r < n) (col : j < w) :
    (a.stack b).get [r, j] = a.get [r, j] := by
  have inside : ravel [n, w] [r, j] < [n, w].prod := ravel_lt (.cons row (.cons col .nil))
  simp only [ravel, List.prod_cons, List.prod_nil, Nat.mul_one, Nat.add_zero] at inside
  simp only [get, stack, shape, ravel, List.tail_cons, List.prod_cons, List.prod_nil, Nat.mul_one, Nat.add_zero, inside, if_true]

theorem get_stack_right (shape : a.shape = [n, w]) (below : b.shape = [m, w]) (r j : Nat) :
    (a.stack b).get [n + r, j] = b.get [r, j] := by
  have past : ¬(n + r) * w + j < n * w := by
    rw [Nat.add_mul]
    omega
  have rest : (n + r) * w + j - n * w = r * w + j := by
    rw [Nat.add_mul]
    omega
  simp only [get, stack, shape, below, ravel, List.tail_cons, List.prod_cons, List.prod_nil, Nat.mul_one, Nat.add_zero, past,
    if_false, rest]

/-- Matrices of one width, with their numbers of rows. -/
def Matrices (w : Nat) (arrays : List (NdArray α)) (counts : List Nat) : Prop :=
  List.Forall₂ (fun a n => a.shape = [n, w]) arrays counts

/-- The rows of a concatenation: row `r` of a matrix comes after the rows of the matrices before it. -/
theorem concatenate_rows {arrays : List (NdArray α)} {counts : List Nat} (sizes : Matrices w arrays counts) (some : arrays ≠ []) :
    ∃ out, concatenate arrays = .ok out ∧ out.shape = [counts.sum, w] ∧
      ∀ i a n, arrays[i]? = .some a → counts[i]? = .some n → ∀ r < n, ∀ j < w,
        out.get [(counts.take i).sum + r, j] = a.get [r, j] := by
  induction sizes with
  | nil => exact absurd rfl some
  | @cons a n arrays counts shape rest ih =>
    cases rest with
    | nil =>
      refine ⟨a, rfl, by simpa using shape, ?_⟩
      intro i a' n' at? count r _ j _
      cases i with
      | zero =>
        obtain rfl : a = a' := by simpa using at?
        simp
      | succ i => simp at at?
    | @cons a₂ n₂ arrays counts shape₂ rest =>
      obtain ⟨below, run, size, rows⟩ := ih (List.cons_ne_nil _ _)
      refine ⟨a.stack below, ?_, ?_, ?_⟩
      · rw [concatenate, run]
        · rfl
        · exact List.cons_ne_nil _ _
      · rw [shape_stack shape size, List.sum_cons (a := n)]
      · intro i a' n' at? count r row j col
        cases i with
        | zero =>
          obtain rfl : a = a' := by simpa using at?
          obtain rfl : n = n' := by simpa using count
          rw [List.take_zero, List.sum_nil, Nat.zero_add, get_stack_left shape row col]
        | succ i =>
          rw [List.take_succ_cons, List.sum_cons, Nat.add_assoc, get_stack_right shape size]
          exact rows i a' n' (by simpa using at?) (by simpa using count) r row j col

end NdArray

end Mlxforge
