import Mathlib.Data.List.Basic
import Mathlib.Data.List.GetD

/-!
Flat lists read as rows of one width, or as parts of bounded length.
-/

namespace Mlxforge

/-! ### Numbers below a product -/

theorem divMod_add {d q x : Nat} (below : x < d) : (q * d + x) / d = q ∧ (q * d + x) % d = x :=
  (Nat.div_mod_unique (Nat.zero_lt_of_lt below)).mpr ⟨by rw [Nat.mul_comm, Nat.add_comm], below⟩

theorem digit_lt {n d q x : Nat} (outer : q < n) (inner : x < d) : q * d + x < n * d := by
  have room : (q + 1) * d ≤ n * d := Nat.mul_le_mul_right d outer
  rw [Nat.succ_mul] at room
  omega

theorem place_of_lt {n d r : Nat} (inside : r < n * d) : ∃ q < n, ∃ x < d, r = q * d + x := by
  have positive : 0 < d := Nat.pos_of_lt_mul_left inside
  refine ⟨r / d, Nat.div_lt_of_lt_mul (by rwa [Nat.mul_comm]), r % d, Nat.mod_lt r positive, ?_⟩
  rw [Nat.mul_comm, Nat.div_add_mod]

/-! ### Rows -/

variable {α : Type*} {w n : Nat} {xs : List α} {f : Nat → List α}

/-- Row `i` of a list of rows of width `w`. -/
def row (w : Nat) (xs : List α) (i : Nat) : List α := (xs.drop (i * w)).take w

theorem row_append_left {front : List α} (size : front.length = w) (rest : List α) (i : Nat) :
    row w (front ++ rest) (i + 1) = row w rest i := by
  rw [row, Nat.succ_mul, Nat.add_comm, ← List.drop_drop, List.drop_left' size]
  rfl

theorem row_zero_append {front : List α} (size : front.length = w) (rest : List α) : row w (front ++ rest) 0 = front := by
  rw [row, Nat.zero_mul, List.drop_zero, List.take_left' size]

theorem row_length (size : xs.length = n * w) {i : Nat} (inside : i < n) : (row w xs i).length = w := by
  have room : (i + 1) * w ≤ n * w := Nat.mul_le_mul_right w inside
  rw [Nat.succ_mul] at room
  rw [row, List.length_take, List.length_drop, size]
  omega

/-- The rows of a concatenation of rows. -/
theorem row_flatMap (each : ∀ i < n, (f i).length = w) {i : Nat} (inside : i < n) :
    row w ((List.range n).flatMap f) i = f i := by
  induction n generalizing f i with
  | zero => omega
  | succ n ih =>
    rw [List.range_succ_eq_map, List.flatMap_cons, List.flatMap_map]
    cases i with
    | zero => exact row_zero_append (each 0 (by omega)) _
    | succ i =>
      rw [row_append_left (each 0 (by omega))]
      apply ih (f := fun i => f (i + 1))
      · exact fun i below => each (i + 1) (by omega)
      · omega

theorem length_flatMap_rows (each : ∀ i < n, (f i).length = w) : ((List.range n).flatMap f).length = n * w := by
  have lengths : (List.range n).map (fun i => (f i).length) = (List.range n).map fun _ => w :=
    List.map_congr_left fun i member => each i (List.mem_range.mp member)
  rw [List.length_flatMap, lengths, List.map_const', List.sum_replicate_nat, List.length_range]

/-- An element of a concatenation of lists of one length. -/
theorem getElem?_flatMap_rows {β : Type*} {k : Nat} {f : α → List β} (each : ∀ x, (f x).length = k) (b : Nat) {i : Nat}
    (below : i < k) : (xs.flatMap f)[b * k + i]? = xs[b]?.bind fun x => (f x)[i]? := by
  induction xs generalizing b with
  | nil => simp
  | cons x xs ih =>
    rw [List.flatMap_cons]
    cases b with
    | zero =>
      rw [Nat.zero_mul, Nat.zero_add, List.getElem?_append_left (by rw [each]; exact below)]
      rfl
    | succ b =>
      rw [List.getElem?_append_right (by rw [each, Nat.succ_mul]; omega), each, Nat.succ_mul,
        show b * k + k + i - k = b * k + i by omega, ih]
      rfl

/-- A list is the concatenation of its rows. -/
theorem flatMap_row (size : xs.length = n * w) : (List.range n).flatMap (row w xs) = xs := by
  induction n generalizing xs with
  | zero =>
    rw [Nat.zero_mul, List.length_eq_zero_iff] at size
    rw [size]
    rfl
  | succ n ih =>
    rw [Nat.succ_mul] at size
    have front : (xs.take w).length = w := by
      rw [List.length_take]
      omega
    have later : ((List.range n).flatMap (row w (xs.drop w))) = xs.drop w := by
      apply ih
      rw [List.length_drop]
      omega
    have first : row w xs 0 = xs.take w := by rw [row, Nat.zero_mul, List.drop_zero]
    have shift : ∀ i, row w xs (i + 1) = row w (xs.drop w) i := by
      intro i
      rw [row, row, List.drop_drop, Nat.succ_mul, Nat.add_comm]
    rw [List.range_succ_eq_map, List.flatMap_cons, List.flatMap_map, first]
    simp only [shift]
    rw [later, List.take_append_drop]

theorem flatMap_eq_iff (size : xs.length = n * w) (each : ∀ i < n, (f i).length = w) :
    (List.range n).flatMap f = xs ↔ ∀ i < n, f i = row w xs i := by
  constructor
  · rintro rfl i inside
    exact (row_flatMap each inside).symm
  · intro rows
    rw [← flatMap_row size]
    apply List.flatMap_congr
    intro i member
    exact rows i (List.mem_range.mp member)

/-- A range walked in rows of width `w`. -/
theorem map_range_mul {β : Type*} (n w : Nat) (f : Nat → β) :
    (List.range (n * w)).map f = (List.range n).flatMap fun q => (List.range w).map fun x => f (q * w + x) := by
  induction n with
  | zero => rw [Nat.zero_mul]; rfl
  | succ n ih =>
    rw [Nat.succ_mul, List.range_add, List.map_append, ih, List.map_map, List.range_succ, List.flatMap_append,
      List.flatMap_singleton]
    rfl

/-! ### Parts of any length -/

/-- Parts of bounded length add up to the whole only if each is as it should be. -/
theorem flatMap_eq_flatMap_iff {α β : Type*} {f g : α → List β} {xs : List α}
    (short : ∀ x ∈ xs, (f x).length ≤ (g x).length) : xs.flatMap f = xs.flatMap g ↔ ∀ x ∈ xs, f x = g x := by
  constructor
  · intro same
    have total : ∀ ys : List α, (∀ y ∈ ys, (f y).length ≤ (g y).length) →
        (ys.flatMap f).length ≤ (ys.flatMap g).length := by
      intro ys
      induction ys with
      | nil => exact fun _ => Nat.le_refl _
      | cons y ys ih =>
        intro short
        have front := short y (by simp)
        have rest := ih fun z later => short z (.tail _ later)
        rw [List.flatMap_cons, List.flatMap_cons, List.length_append, List.length_append]
        omega
    induction xs with
    | nil => exact fun _ absent => absurd absent (List.not_mem_nil)
    | cons x xs ih =>
      rw [List.flatMap_cons, List.flatMap_cons] at same
      have front := short x (by simp)
      have rest := total xs fun y later => short y (.tail _ later)
      have length := congrArg List.length same
      rw [List.length_append, List.length_append] at length
      obtain ⟨here, later⟩ := List.append_inj same (by omega)
      intro y member
      rcases List.mem_cons.mp member with rfl | member
      · exact here
      · exact ih (fun z later => short z (.tail _ later)) later y member
  · exact fun each => List.flatMap_congr each

end Mlxforge
