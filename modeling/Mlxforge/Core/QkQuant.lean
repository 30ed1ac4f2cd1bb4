import Mlxforge.Core.LegacyQuant
import Mlxforge.Core.QkRows

/-!
The row order of quantized q/k projections. A row of the affine arrays is made of the row's blocks alone, so the three
arrays of a projection are put back in order by one row map.
-/

namespace Mlxforge

open StreamReader

/-! ### The rows of the affine arrays -/

/-- A row of a row. -/
theorem row_row {α : Type*} {w k : Nat} (xs : List α) (r : Nat) {x : Nat} (inside : x < k) :
    row w (row (k * w) xs r) x = row w xs (r * k + x) := by
  have room : w ≤ k * w - x * w := by
    rw [← Nat.sub_mul]
    exact Nat.le_mul_of_pos_left w (Nat.sub_pos_of_lt inside)
  rw [row, row, row, List.drop_take, List.take_take, Nat.min_eq_left room, List.drop_drop, Nat.add_mul, Nat.mul_assoc]

theorem runsOf_append {α : Type} {a : List α} {k n : Nat} (whole : a.length = n * k) (m : Nat) (b : List α) :
    runsOf k (n + m) (a ++ b) = runsOf k n a ++ runsOf k m b := by
  unfold runsOf
  rw [List.range_add, List.map_append, List.map_map]
  congr 1
  · apply List.map_congr_left
    intro i member
    have inside : (i + 1) * k ≤ n * k := Nat.mul_le_mul_right k (List.mem_range.mp member)
    rw [Nat.succ_mul] at inside
    rw [List.drop_append_of_le_length (by omega), List.take_append_of_le_length (by rw [List.length_drop]; omega)]
  · apply List.map_congr_left
    intro i _
    have behind : (n + i) * k - n * k = i * k := by rw [Nat.add_mul, Nat.add_sub_cancel_left]
    rw [Function.comp_apply, List.drop_append, List.drop_eq_nil_of_le (by rw [whole, Nat.add_mul]; omega), List.nil_append,
      whole, behind]

theorem packedWords_append {a : Bytes} {n : Nat} (whole : a.length = n * 4) (b : Bytes) :
    packedWords (a ++ b) = packedWords a ++ packedWords b := by
  have total : (a ++ b).length / 4 = n + b.length / 4 := by
    rw [List.length_append, whole, Nat.add_comm, Nat.add_mul_div_right _ _ (by decide), Nat.add_comm]
  have front : a.length / 4 = n := by rw [whole, Nat.mul_div_cancel _ (by decide)]
  unfold packedWords
  rw [total, front, runsOf_append whole, List.map_append]

theorem packedWords_flatMap {f : Nat → Bytes} {k n : Nat} (whole : ∀ i < n, (f i).length = k * 4) :
    packedWords ((List.range n).flatMap f) = (List.range n).flatMap fun i => packedWords (f i) := by
  induction n with
  | zero => simp [packedWords, runsOf]
  | succ n ih =>
    have front : ((List.range n).flatMap f).length = n * k * 4 := by
      rw [length_flatMap_rows fun i below => whole i (by omega), Nat.mul_assoc]
    rw [List.range_succ, List.flatMap_append, List.flatMap_append, List.flatMap_singleton, List.flatMap_singleton,
      packedWords_append front, ih fun i below => whole i (by omega)]

section
variable (type groups : Nat) (data : Bytes)

theorem legacyBlocks_rows (rows : Nat) : legacyBlocks type (rows * groups) data =
    (List.range rows).flatMap fun r => legacyBlocks type groups (row (groups * legacyBlockBytes type) data r) := by
  rw [legacyBlocks, map_range_mul]
  apply List.flatMap_congr
  intro r _
  apply List.map_congr_left
  intro x member
  rw [row_row data r (List.mem_range.mp member)]

/-- The row of the packed weight that a row of blocks becomes. -/
def weightRow (data : Bytes) : List (UInt32 ⊕ ℚ) := (packedWords ((legacyBlocks type groups data).flatMap (·.packed))).map .inl

def scalesRow (data : Bytes) : List (UInt32 ⊕ ℚ) := (legacyBlocks type groups data).map fun b => .inr b.scale

def biasesRow (data : Bytes) : List (UInt32 ⊕ ℚ) := (legacyBlocks type groups data).map fun b => .inr b.bias

end

/-- A tensor's data with row `order i` at row `i`. -/
def reorderRows (w n : Nat) (order : Nat → Nat) (data : Bytes) : Bytes := (List.range n).flatMap fun i => row w data (order i)

section
variable {type groups rows : Nat} {data : Bytes} (legacy : isLegacyQuant type)
include legacy

theorem legacyBlocks_length_row (size : data.length = groups * legacyBlockBytes type) :
    (weightRow type groups data).length = groups * legacyBits type ∧ (scalesRow type groups data).length = groups ∧
      (biasesRow type groups data).length = groups := by
  have size' : data.length = 1 * groups * legacyBlockBytes type := by rw [size, Nat.one_mul]
  have packed := (legacyBlocks_packed legacy size').1
  rw [Nat.one_mul] at packed
  refine ⟨?_, ?_, ?_⟩
  · rw [weightRow, List.length_map, packedWords, List.length_map, runsOf, List.length_map, List.length_range, packed,
      Nat.mul_left_comm, Nat.mul_div_cancel_left _ (by decide)]
  · rw [scalesRow, List.length_map, legacyBlocks, List.length_map, List.length_range]
  · rw [biasesRow, List.length_map, legacyBlocks, List.length_map, List.length_range]

variable (size : data.length = rows * groups * legacyBlockBytes type)
include size

omit legacy in
theorem row_bytes {r : Nat} (inside : r < rows) :
    (row (groups * legacyBlockBytes type) data r).length = groups * legacyBlockBytes type :=
  row_length (by rw [size, Nat.mul_assoc]) inside

/-- The arrays of a matrix, row by row. -/
theorem affineArrays_rows :
    let qa := affineArrays type [(rows : Int), ((32 * groups : Nat) : Int)] (legacyBlocks type (rows * groups) data)
    let made (f : Bytes → List (UInt32 ⊕ ℚ)) := (List.range rows).flatMap fun r =>
      f (row (groups * legacyBlockBytes type) data r)
    qa.weight = ⟨.uint32, [(rows : Int), ((groups * legacyBits type : Nat) : Int)], made (weightRow type groups)⟩ ∧
      qa.scales = ⟨.float16, [(rows : Int), (groups : Int)], made (scalesRow type groups)⟩ ∧
      qa.biases = ⟨.float16, [(rows : Int), (groups : Int)], made (biasesRow type groups)⟩ := by
  have words : (((32 * groups : Nat) : Int) * (legacyBits type : Int)).tdiv 32 = (groups * legacyBits type : Nat) := by
    rw [Int.natCast_mul, Int.mul_assoc, ← Int.natCast_mul]
    exact Int.mul_tdiv_cancel_left _ (show (32 : Int) ≠ 0 by decide)
  have params : ((32 * groups : Nat) : Int).tdiv 32 = groups := by
    rw [Int.natCast_mul]
    exact Int.mul_tdiv_cancel_left _ (show (32 : Int) ≠ 0 by decide)
  have each : ∀ r < rows, ((legacyBlocks type groups (row (groups * legacyBlockBytes type) data r)).flatMap
      (·.packed)).length = groups * legacyBits type * 4 := by
    intro r inside
    have size' : (row (groups * legacyBlockBytes type) data r).length = 1 * groups * legacyBlockBytes type := by
      rw [row_bytes size inside, Nat.one_mul]
    have packed := (legacyBlocks_packed legacy size').1
    rw [Nat.one_mul] at packed
    rw [packed, Nat.mul_comm 4, Nat.mul_assoc]
  simp only [affineArrays, List.dropLast, List.getLastD, List.getLast, List.singleton_append, words, params,
    legacyBlocks_rows type groups data rows, List.flatMap_assoc, packedWords_flatMap each, List.map_flatMap]
  exact ⟨rfl, rfl, rfl⟩

end

/-! ### The row map on the three arrays -/

section
variable {type groups rows : Nat} {data : Bytes}

/-- An array made row by row is reordered by reordering the data it is made from. -/
theorem reorder_made {order : Nat → Nat} {dtype : Dtype} {c : Nat} {f : Bytes → List (UInt32 ⊕ ℚ)} {w : Nat}
    (into : ∀ r < rows, order r < rows) (size : ∀ r < rows, (row w data r).length = w)
    (each : ∀ line : Bytes, line.length = w → (f line).length = c) :
    (⟨dtype, [(rows : Int), (c : Int)], (List.range rows).flatMap fun r =>
        f (row w (reorderRows w rows order data) r)⟩ : MlxArray ℚ) =
      (⟨dtype, [(rows : Int), (c : Int)], (List.range rows).flatMap fun r => f (row w data r)⟩ : MlxArray ℚ).reorder
        order rows := by
  have width : (numElements [(c : Int)]).toNat = c := by simp [numElements]
  unfold MlxArray.reorder MlxArray.width
  simp only [List.tail_cons, width]
  congr 1
  apply List.flatMap_congr
  intro r member
  have inside := List.mem_range.mp member
  rw [reorderRows, row_flatMap (fun i below => size _ (into i below)) inside,
    row_flatMap (fun i below => each _ (size i below)) (into r inside)]

theorem hasRows_made {dtype : Dtype} {c : Nat} {f : Nat → List (UInt32 ⊕ ℚ)} (each : ∀ r < rows, (f r).length = c) :
    (⟨dtype, [(rows : Int), (c : Int)], (List.range rows).flatMap f⟩ : MlxArray ℚ).HasRows rows where
  shape := ⟨[(c : Int)], rfl⟩
  cells := by simp [MlxArray.width, numElements, length_flatMap_rows each]

theorem unpermuteQkRows_ok (heads half : Nat) {c : Nat} (some : 0 < c) (dtype : Dtype) (cells : List (UInt32 ⊕ ℚ)) :
    ∃ a', unpermuteQkRows ⟨dtype, [((heads * (2 * half) : Nat) : Int), (c : Int)], cells⟩ heads ((2 * half : Nat) : Int) =
      .ok a' := by
  have size : (heads : Int) * ((2 * half : Nat) : Int) = (heads * (2 * half) : Nat) := by push_cast; rfl
  unfold unpermuteQkRows MlxArray.takeRows
  rw [size]
  simp only [Int.toNat_natCast, Int.not_lt.mpr (Int.natCast_nonneg _), if_false]
  have nonempty : ¬(numElements [((heads * (2 * half) : Nat) : Int), (c : Int)] = 0 ∧
      (List.range (heads * (2 * half))).map (fun hf : Nat => unpermuteIndex ((2 * half : Nat) : Int) hf) ≠ []) := by
    rintro ⟨none, some_row⟩
    have product : numElements [((heads * (2 * half) : Nat) : Int), (c : Int)] = ((heads * (2 * half) * c : Nat) : Int) := by
      simp [numElements]
    rw [product, Int.natCast_eq_zero, Nat.mul_eq_zero] at none
    rcases none with none | none
    · exact some_row (by rw [none]; rfl)
    · omega
  rw [if_neg nonempty]
  exact ⟨_, rfl⟩

/-- An array as the converter stores it comes back in the checkpoint's order. -/
theorem unpermuteQkRows_made {heads half c w : Nat} {dtype : Dtype} {f : Bytes → List (UInt32 ⊕ ℚ)} (some : 0 < c)
    (size : ∀ r < heads * (2 * half), (row w data r).length = w)
    (each : ∀ line : Bytes, line.length = w → (f line).length = c) :
    unpermuteQkRows ⟨dtype, [((heads * (2 * half) : Nat) : Int), (c : Int)], (List.range (heads * (2 * half))).flatMap
        fun r => f (row w (reorderRows w (heads * (2 * half)) (permuteIndex (2 * half)) data) r)⟩ heads
        ((2 * half : Nat) : Int) =
      .ok ⟨dtype, [((heads * (2 * half) : Nat) : Int), (c : Int)], (List.range (heads * (2 * half))).flatMap
        fun r => f (row w data r)⟩ := by
  obtain ⟨a', taken⟩ := unpermuteQkRows_ok heads half some dtype ((List.range (heads * (2 * half))).flatMap
    fun r => f (row w (reorderRows w (heads * (2 * half)) (permuteIndex (2 * half)) data) r))
  rw [taken, unpermuteQkRows_of_ok ⟨_, rfl⟩ taken, reorder_made (fun r => permuteIndex_lt) size each,
    unpermute_permute (hasRows_made fun r inside => each _ (size r inside))]

end

/-! ### The whole map -/

theorem permuteIndex_head {heads half g : Nat} (inside : g < heads * (2 * half)) :
    permuteIndex (2 * half) g / (2 * half) = g / (2 * half) := by
  obtain ⟨h, _, rem, inHead, rfl⟩ := place_of_lt inside
  rw [(divMod_add inHead).1]
  rw [Nat.mul_comm 2] at inHead
  obtain ⟨a, inHalf, b, inPair, rfl⟩ := place_of_lt inHead
  rw [permuteIndex_eq h inHalf inPair, (divMod_add (place_lt inHalf inPair).1).1]

theorem unpermuteRow_permuteIndex {heads half g : Nat} (inside : g < heads * (2 * half)) :
    unpermuteRow (2 * half) (permuteIndex (2 * half) g) = g := by
  obtain ⟨h, _, rem, inHead, rfl⟩ := place_of_lt inside
  rw [Nat.mul_comm 2] at inHead
  obtain ⟨a, inHalf, b, inPair, rfl⟩ := place_of_lt inHead
  rw [permuteIndex_eq h inHalf inPair, unpermuteRow_eq h inHalf inPair]

/-- The row map of the loader permutes the rows of every head, and undoes the converter's. -/
structure InvertsConverter (heads half : Nat) : Prop where
  bijective : Set.BijOn (unpermuteRow (2 * half)) (Set.Iio (heads * (2 * half))) (Set.Iio (heads * (2 * half)))
  together : ∀ r < heads * (2 * half), unpermuteRow (2 * half) r / (2 * half) = r / (2 * half)
  pairs : ∀ h < heads, ∀ a < half, ∀ b < 2,
    unpermuteIndex ((2 * half : Nat) : Int) ((h * (2 * half) + (b * half + a) : Nat) : Int) =
      ((h * (2 * half) + (a * 2 + b) : Nat) : Int)
  converted : ∀ r < heads * (2 * half), permuteIndex (2 * half) (unpermuteRow (2 * half) r) = r
  loaded : ∀ g < heads * (2 * half), unpermuteRow (2 * half) (permuteIndex (2 * half) g) = g

theorem invertsConverter (heads half : Nat) : InvertsConverter heads half where
  bijective := by
    refine Set.InvOn.bijOn ⟨?_, ?_⟩ (fun r => unpermuteRow_lt) (fun g => permuteIndex_lt)
    · exact fun r => permuteIndex_unpermuteRow
    · exact fun g => unpermuteRow_permuteIndex
  together := by
    intro r inside
    rw [← permuteIndex_head (unpermuteRow_lt inside), permuteIndex_unpermuteRow inside]
  pairs := fun h _ _ inHalf _ inPair => unpermuteIndex_eq h inHalf inPair
  converted := fun _ => permuteIndex_unpermuteRow
  loaded := fun _ => unpermuteRow_permuteIndex

/-- A quantized q/k projection that the file has in the converter's order: the row map turns each of the three arrays into
that of the projection in the checkpoint's order, and the values move with the rows. -/
theorem unpermuteQkRows_inverts (heads half : Nat) : InvertsConverter heads half ∧
    ∀ {type groups pos : Nat} {data : Bytes} {s : InputStream}, isLegacyQuant type → 0 < groups →
      data.length = heads * (2 * half) * groups * legacyBlockBytes type → s.failed = false → pos < 2 ^ 63 →
      reorderRows (groups * legacyBlockBytes type) (heads * (2 * half)) (permuteIndex (2 * half)) data <+: s.bytes.drop pos →
      Yields (extractLegacyQuant pos [((heads * (2 * half) : Nat) : Int), ((32 * groups : Nat) : Int)] type) s
        fun (gguf : QuantArrays ℚ) _ => ∃ hf : QuantArrays ℚ,
          unpermuteQkRows gguf.weight heads ((2 * half : Nat) : Int) = .ok hf.weight ∧
          unpermuteQkRows gguf.scales heads ((2 * half : Nat) : Int) = .ok hf.scales ∧
          unpermuteQkRows gguf.biases heads ((2 * half : Nat) : Int) = .ok hf.biases ∧
          (∀ t : InputStream, t.failed = false → ∀ start < 2 ^ 63, data <+: t.bytes.drop start →
            Yields (extractLegacyQuant start [((heads * (2 * half) : Nat) : Int), ((32 * groups : Nat) : Int)] type) t
              fun (qa : QuantArrays ℚ) _ => qa = hf) ∧
          ∀ r < heads * (2 * half), ∀ c < 32 * groups, hf.value 32 (legacyBits type) r c =
            gguf.value 32 (legacyBits type) (unpermuteRow (2 * half) r) c := by
  refine ⟨invertsConverter heads half, ?_⟩
  intro type groups pos data s legacy some size good small found
  have lines : ∀ r < heads * (2 * half), (row (groups * legacyBlockBytes type) data r).length =
      groups * legacyBlockBytes type := fun r inside => row_bytes size inside
  have stored : (reorderRows (groups * legacyBlockBytes type) (heads * (2 * half)) (permuteIndex (2 * half)) data).length =
      heads * (2 * half) * groups * legacyBlockBytes type := by
    rw [reorderRows, length_flatMap_rows fun r inside => lines _ (permuteIndex_lt inside), ← Nat.mul_assoc]
  have elements : numElements [((heads * (2 * half) : Nat) : Int), ((32 * groups : Nat) : Int)] =
      (32 * (heads * (2 * half) * groups) : Nat) := by
    simp only [numElements, List.foldl_cons, List.foldl_nil]
    push_cast
    ring
  refine (extractLegacyQuant_run legacy good small elements stored found).mono ?_
  intro gguf _ same
  subst same
  obtain ⟨weight, scales, biases⟩ := affineArrays_rows legacy stored
  obtain ⟨weight', scales', biases'⟩ := affineArrays_rows legacy size
  refine ⟨affineArrays type [((heads * (2 * half) : Nat) : Int), ((32 * groups : Nat) : Int)]
    (legacyBlocks type (heads * (2 * half) * groups) data), ?_, ?_, ?_, ?_, ?_⟩
  · have bits : 0 < legacyBits type := by rcases legacy with rfl | rfl | rfl <;> decide
    rw [weight, weight']
    exact unpermuteQkRows_made (Nat.mul_pos some bits) lines fun line length => (legacyBlocks_length_row legacy length).1
  · rw [scales, scales']
    exact unpermuteQkRows_made some lines fun line length => (legacyBlocks_length_row legacy length).2.1
  · rw [biases, biases']
    exact unpermuteQkRows_made some lines fun line length => (legacyBlocks_length_row legacy length).2.2
  · intro t good start small found
    exact extractLegacyQuant_run legacy good small elements size found
  · intro r inRow c inColumn
    have moved := unpermuteRow_lt inRow
    have block : c / 32 < groups := Nat.div_lt_of_lt_mul inColumn
    have before := @affineArrays_value type _ groups [((heads * (2 * half) : Nat) : Int)] _ legacy size r c inRow inColumn
    have after := @affineArrays_value type _ groups [((heads * (2 * half) : Nat) : Int)] _ legacy stored _ c moved inColumn
    rw [List.singleton_append] at before after
    rw [before, after, ← row_row data r block, ← row_row _ _ block]
    congr 2
    rw [reorderRows, row_flatMap (fun i below => lines _ (permuteIndex_lt below)) moved, permuteIndex_unpermuteRow inRow]

/-- One head of two pairs: four `Q4_0` rows of one block each, of the scales 1, 2, 4 and 8. -/
def fourRows : Bytes := [0x3C, 0x40, 0x44, 0x48].flatMap fun high => [0x00, high] ++ stairs.drop 2

theorem unpermuteQkRows_inverts_fourRows :
    Yields (extractLegacyQuant 0 [4, 32] kGgmlQ4_0)
      { bytes := reorderRows 18 4 (permuteIndex 4) fourRows, unset := fun _ => 0 } fun (gguf : QuantArrays ℚ) _ =>
        ∃ hf : QuantArrays ℚ, unpermuteQkRows gguf.weight 1 4 = .ok hf.weight ∧
          hf.value 32 4 1 17 = gguf.value 32 4 2 17 := by
  have legacy : isLegacyQuant kGgmlQ4_0 := .inl rfl
  have size : fourRows.length = 1 * (2 * 2) * 1 * legacyBlockBytes kGgmlQ4_0 := by decide
  have stored : reorderRows (1 * legacyBlockBytes kGgmlQ4_0) (1 * (2 * 2)) (permuteIndex (2 * 2)) fourRows <+:
      ({ bytes := reorderRows 18 4 (permuteIndex 4) fourRows, unset := fun _ => 0 } : InputStream).bytes.drop 0 :=
    List.prefix_rfl
  have run := (unpermuteQkRows_inverts 1 2).2 legacy (by decide) size rfl (by decide) stored
  apply run.mono
  intro gguf _ found
  obtain ⟨hf, weight, _, _, _, values⟩ := found
  exact ⟨hf, weight, values 1 (by decide) 17 (by decide)⟩

end Mlxforge
