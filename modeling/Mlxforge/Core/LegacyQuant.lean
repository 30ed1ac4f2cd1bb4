import Mlxforge.Core.GgufTruncation
import Mlxforge.Lib.PackedFields

/-!
The repacking of `Q4_0`, `Q4_1` and `Q8_0` tensors: MLX's affine layout unpacks to the values of ggml's blocks.
-/

namespace Mlxforge

open StreamReader

/-! ### The two layouts -/

/-- The bytes of one block of 32 elements. -/
def legacyBlockBytes (type : Nat) : Nat := if type = kGgmlQ4_0 then 18 else if type = kGgmlQ4_1 then 20 else 34

/-- Element `j` of 16 bytes: the low nibbles are elements 0 to 15, the high ones 16 to 31. -/
def nibble (qs : Bytes) (j : Nat) : Nat :=
  if j < 16 then (qs.getD j 0).toNat % 16 else (qs.getD (j - 16) 0).toNat / 16

/-- The value of element `j` of a block. -/
def ggmlValue (type : Nat) (block : Bytes) (j : Nat) : ℚ :=
  let d : ℚ := halfToFloat (fromLittleEndian (block.take 2))
  if type = kGgmlQ4_0 then d * ((nibble (block.drop 2) j : ℚ) - 8)
  else if type = kGgmlQ4_1 then
    d * (nibble (block.drop 4) j : ℚ) + halfToFloat (fromLittleEndian ((block.drop 2).take 2))
  else d * (signed 1 ((block.drop 2).getD j 0).toNat : ℚ)

namespace MlxArray

variable {R : Type}

def columns (a : MlxArray R) : Nat := (a.shape.getLastD 0).toNat

def wordAt (a : MlxArray R) (i : Nat) : Nat :=
  match a.cells[i]? with
  | some (.inl w) => w.toNat
  | _ => 0

def numberAt (a : MlxArray ℚ) (i : Nat) : ℚ :=
  match a.cells[i]? with
  | some (.inr x) => x
  | _ => 0

end MlxArray

/-- The bit width that `index_gguf_quant` derives. -/
def derivedBits {R : Type} (weight scales : MlxArray R) : Int :=
  let wcols := weight.shape.getLastD 0
  let scols := scales.shape.getLastD 0
  if 0 < scols then wcols.tdiv scols else 0

theorem indexGgufQuant_bits {R : Type} (w : Tensors R) : indexGgufQuant w =
    (w.entries.filter fun e => endsWith e.1 (.ofAscii ".scales")).mapM fun e =>
      match w.lookup (dropSuffix e.1 ++ .ofAscii ".weight") with
      | none => .error .outOfRange
      | some weight => .ok (dropSuffix e.1, derivedBits weight e.2) := rfl

namespace QuantArrays

/-- Element `c` of row `r` of an affine weight, packed `bits` wide from the low end of each word. -/
def quant (qa : QuantArrays ℚ) (bits r c : Nat) : Nat :=
  qa.weight.wordAt (r * qa.weight.columns + c * bits / 32) / 2 ^ (c * bits % 32) % 2 ^ bits

/-- `scale * q + bias` with the parameters of the element's group. -/
def value (qa : QuantArrays ℚ) (groupSize bits r c : Nat) : ℚ :=
  qa.scales.numberAt (r * qa.scales.columns + c / groupSize) * (qa.quant bits r c : ℚ) +
    qa.biases.numberAt (r * qa.biases.columns + c / groupSize)

end QuantArrays

/-! ### One block -/

section block
variable {R : Type} [Floats R]

theorem reads_scalar_bytes (bytes : Bytes) : Reads (readScalar bytes.length) bytes (fromLittleEndian bytes) :=
  (reads_fresh bytes).bind_pure

/-- What is read from a block's bytes. -/
def legacyBlock (R : Type) [Floats R] (type : Nat) (block : Bytes) : LegacyBlock R :=
  let d : R := halfToFloat (fromLittleEndian (block.take 2))
  if type = kGgmlQ4_0 then ⟨d, Floats.ofInt (-8) * d, repackNibbles (block.drop 2)⟩
  else if type = kGgmlQ4_1 then
    ⟨d, halfToFloat (fromLittleEndian ((block.drop 2).take 2)), repackNibbles (block.drop 4)⟩
  else ⟨d, Floats.ofInt (-128) * d, (block.drop 2).map (· ^^^ 0x80)⟩

theorem reads_legacyBlock {type : Nat} {block : Bytes} (legacy : isLegacyQuant type)
    (size : block.length = legacyBlockBytes type) : Reads (readLegacyBlock type) block (legacyBlock R type block) := by
  have scale := reads_scalar_bytes (block.take 2)
  have two : (block.take 2).length = 2 := by
    rw [List.length_take, size]
    rcases legacy with rfl | rfl | rfl <;> decide
  rw [two] at scale
  have read : Reads (readLegacyBlock type) (block.take 2 ++ block.drop 2) (legacyBlock R type block) := by
    unfold readLegacyBlock
    apply scale.bind
    rcases legacy with rfl | rfl | rfl
    · have rest : (block.drop 2).length = 16 := by rw [List.length_drop, size]; decide
      have quants := reads_fresh (ε := GgufError) (block.drop 2)
      rw [rest] at quants
      show Reads (readFresh 16 >>= fun rb =>
        pure (LegacyBlock.mk (halfToFloat _) (Floats.ofInt (-8) * halfToFloat _) (repackNibbles rb))) _ _
      exact quants.bind_pure
    · have minimum := reads_scalar_bytes ((block.drop 2).take 2)
      have two : ((block.drop 2).take 2).length = 2 := by rw [List.length_take, List.length_drop, size]; decide
      have rest : ((block.drop 2).drop 2).length = 16 := by rw [List.length_drop, List.length_drop, size]; decide
      have quants := reads_fresh (ε := GgufError) ((block.drop 2).drop 2)
      rw [two] at minimum
      rw [rest] at quants
      have both : Reads (readScalar 2 >>= fun m => readFresh 16 >>= fun rb =>
          pure ⟨halfToFloat (fromLittleEndian (block.take 2)), halfToFloat m, repackNibbles rb⟩)
          ((block.drop 2).take 2 ++ (block.drop 2).drop 2) (legacyBlock R kGgmlQ4_1 block) := by
        apply minimum.bind
        have packed := quants.bind_pure (f := fun rb => (⟨halfToFloat (fromLittleEndian (block.take 2)),
          halfToFloat (fromLittleEndian ((block.drop 2).take 2)), repackNibbles rb⟩ : LegacyBlock R))
        rw [List.drop_drop] at packed ⊢
        exact packed
      rw [List.take_append_drop] at both
      simp only [readLegacyBias, if_pos, bind_assoc, pure_bind]
      exact both
    · have rest : (block.drop 2).length = 32 := by rw [List.length_drop, size]; decide
      have quants := reads_fresh (ε := GgufError) (block.drop 2)
      rw [rest] at quants
      show Reads (readFresh 32 >>= fun rb =>
        pure (LegacyBlock.mk (halfToFloat _) (Floats.ofInt (-128) * halfToFloat _) (rb.map (· ^^^ 0x80)))) _ _
      exact quants.bind_pure
  rwa [List.take_append_drop] at read

/-- The bit width of the quants. -/
def legacyBits (type : Nat) : Nat := if type = kGgmlQ8_0 then 8 else 4

theorem repackNibbles_length (rb : Bytes) : (repackNibbles rb).length = 16 := by
  simp [repackNibbles]

theorem legacyBlock_packed_length {type : Nat} {block : Bytes} (legacy : isLegacyQuant type)
    (size : block.length = legacyBlockBytes type) :
    (legacyBlock R type block).packed.length = 4 * legacyBits type := by
  rcases legacy with rfl | rfl | rfl
  · exact repackNibbles_length _
  · exact repackNibbles_length _
  · show ((block.drop 2).map _).length = 32
    rw [List.length_map, List.length_drop, size]
    decide

theorem low_nibble (x : UInt8) : (x &&& 0x0F).toNat = x.toNat % 16 := by
  rw [UInt8.toNat_and]
  exact Nat.and_two_pow_sub_one_eq_mod x.toNat 4

theorem high_nibble (x : UInt8) : (x >>> 4).toNat = x.toNat / 16 := by
  rw [UInt8.toNat_shiftRight]
  exact Nat.shiftRight_eq_div_pow x.toNat 4

/-- Two nibbles side by side in a byte. -/
theorem nibbles_byte {a b : UInt8} (low : a.toNat < 16) (high : b.toNat < 16) {i : Nat} (half : i < 2) :
    (a ||| b <<< 4).toNat / 16 ^ i % 16 = if i = 0 then a.toNat else b.toNat := by
  have shifted : (b <<< 4).toNat = b.toNat <<< 4 := by
    rw [UInt8.toNat_shiftLeft]
    apply Nat.mod_eq_of_lt
    show b.toNat <<< 4 < 256
    rw [Nat.shiftLeft_eq]
    omega
  have sum : (a ||| b <<< 4).toNat = 16 * b.toNat + a.toNat := by
    rw [UInt8.toNat_or, shifted, Nat.or_comm, ← Nat.shiftLeft_add_eq_or_of_lt (show a.toNat < 2 ^ 4 from low),
      Nat.shiftLeft_eq, Nat.mul_comm]
  rw [sum]
  obtain rfl | rfl : i = 0 ∨ i = 1 := by omega
  · rw [if_pos rfl]
    omega
  · rw [if_neg (by decide)]
    omega

/-- The repacked nibbles are ggml's, in order. -/
theorem field_repackNibbles (rb : Bytes) {j : Nat} (inside : j < 32) : field 4 (repackNibbles rb) j = nibble rb j := by
  have half : j % 2 < 2 := Nat.mod_lt j (by decide)
  rw [field_nibble, nibble]
  split
  · rename_i low
    have byte : (repackNibbles rb).getD (j / 2) 0 =
        ((rb.getD (2 * (j / 2)) 0 &&& (0x0F : UInt8)) ||| ((rb.getD (2 * (j / 2) + 1) 0 &&& 0x0F) <<< 4)) := by
      have below : j / 2 < 8 := by omega
      rw [repackNibbles, List.getD_append _ _ _ _ (by simpa using below), List.getD_eq_getElem _ _ (by simpa using below)]
      simp
    rw [byte, nibbles_byte (by rw [low_nibble]; omega) (by rw [low_nibble]; omega) half, low_nibble, low_nibble]
    split
    · rw [show 2 * (j / 2) = j by omega]
    · rw [show 2 * (j / 2) + 1 = j by omega]
  · rename_i high
    have byte : (repackNibbles rb).getD (j / 2) 0 =
        ((rb.getD (2 * (j / 2 - 8)) 0 >>> (4 : UInt8)) ||| ((rb.getD (2 * (j / 2 - 8) + 1) 0 >>> 4) <<< 4)) := by
      have below : j / 2 - 8 < 8 := by omega
      rw [repackNibbles, List.getD_append_right _ _ _ _ (by simp; omega), List.getD_eq_getElem _ _ (by simpa using below)]
      simp
    have small : ∀ x : UInt8, (x >>> 4).toNat < 16 := by
      intro x
      have bound := x.toNat_lt
      rw [high_nibble]
      omega
    rw [byte, nibbles_byte (small _) (small _) half, high_nibble, high_nibble]
    split
    · rw [show 2 * (j / 2 - 8) = j - 16 by omega]
    · rw [show 2 * (j / 2 - 8) + 1 = j - 16 by omega]

/-- Flipping the top bit of an `int8` adds 128. -/
theorem flipped_byte (x : UInt8) : ((x ^^^ 0x80).toNat : Int) = signed 1 x.toNat + 128 := by
  have flip : ∀ n < 256, ((n ^^^ 128 : Nat) : Int) = signed 1 n + 128 := by decide +kernel
  rw [UInt8.toNat_xor]
  exact flip x.toNat x.toNat_lt

end block

/-- One group of the affine layout has the values of the block it was made from. -/
theorem legacyBlock_value {type : Nat} {block : Bytes} (legacy : isLegacyQuant type)
    (size : block.length = legacyBlockBytes type) {j : Nat} (inside : j < 32) :
    (legacyBlock ℚ type block).scale * (field (legacyBits type) (legacyBlock ℚ type block).packed j : ℚ) +
      (legacyBlock ℚ type block).bias = ggmlValue type block j := by
  rcases legacy with rfl | rfl | rfl
  · show halfToFloat _ * (field 4 (repackNibbles (block.drop 2)) j : ℚ) + ((-8 : Int) : ℚ) * halfToFloat _ =
      halfToFloat _ * ((nibble (block.drop 2) j : ℚ) - 8)
    rw [field_repackNibbles _ inside]
    push_cast
    ring
  · show halfToFloat _ * (field 4 (repackNibbles (block.drop 4)) j : ℚ) + halfToFloat _ =
      halfToFloat _ * (nibble (block.drop 4) j : ℚ) + halfToFloat _
    rw [field_repackNibbles _ inside]
  · show halfToFloat _ * (field 8 ((block.drop 2).map (· ^^^ 0x80)) j : ℚ) + ((-128 : Int) : ℚ) * halfToFloat _ =
      halfToFloat _ * (signed 1 ((block.drop 2).getD j 0).toNat : ℚ)
    have below : j < (block.drop 2).length := by
      rw [List.length_drop, size]
      exact inside
    have byte : ((field 8 ((block.drop 2).map (· ^^^ 0x80)) j : Nat) : Int) =
        signed 1 ((block.drop 2).getD j 0).toNat + 128 := by
      rw [field_byte, List.getD_eq_getElem _ _ (by rwa [List.length_map]), List.getElem_map, flipped_byte,
        List.getD_eq_getElem _ _ below]
    have cast := congrArg (fun i : Int => (i : ℚ)) byte
    push_cast at cast ⊢
    rw [cast]
    ring

/-! ### A whole tensor -/

/-- The blocks of a tensor's data. -/
def legacyBlocks (type n : Nat) (data : Bytes) : List (LegacyBlock ℚ) :=
  (List.range n).map fun b => legacyBlock ℚ type (row (legacyBlockBytes type) data b)

/-- The arrays that are made of the blocks of a tensor. -/
def affineArrays (type : Nat) (shape : List Int) (blocks : List (LegacyBlock ℚ)) : QuantArrays ℚ where
  weight := ⟨.uint32, shape.dropLast ++ [(shape.getLastD 0 * (legacyBits type : Int)).tdiv 32],
    (packedWords (blocks.flatMap (·.packed))).map .inl⟩
  scales := ⟨.float16, shape.dropLast ++ [(shape.getLastD 0).tdiv 32], blocks.map fun b => .inr b.scale⟩
  biases := ⟨.float16, shape.dropLast ++ [(shape.getLastD 0).tdiv 32], blocks.map fun b => .inr b.bias⟩

theorem extractLegacyQuant_run {type pos n : Nat} {shape : List Int} {s : InputStream} {data : Bytes}
    (legacy : isLegacyQuant type) (good : s.failed = false) (small : pos < 2 ^ 63) (count : numElements shape = (32 * n : Nat))
    (size : data.length = n * legacyBlockBytes type) (found : data <+: s.bytes.drop pos) :
    Yields (extractLegacyQuant pos shape type) s fun (qa : QuantArrays ℚ) _ =>
      qa = affineArrays type shape (legacyBlocks type n data) := by
  have jump : s.seekTo (signed 8 pos) = { s with pos := pos } := by
    rw [signed_of_lt small, InputStream.seekTo, if_neg (by rw [good]; decide), if_neg (by omega), Int.toNat_natCast]
  unfold extractLegacyQuant
  rw [vectorSize_of_nonneg (by omega), count, Int.toNat_natCast]
  refine Yields.bind (P := fun m t => m = 32 * n ∧ s = t) ⟨_, _, rfl, rfl, rfl⟩ ?_
  rintro _ _ ⟨rfl, rfl⟩
  refine Yields.bind (P := fun _ t => t = { s with pos := pos }) ⟨_, _, rfl, jump⟩ ?_
  rintro _ _ rfl
  have blocks : Reads (times (readLegacyBlock type) (List.range n).length)
      ((List.range n).flatMap (row (legacyBlockBytes type) data)) (legacyBlocks type n data) :=
    reads_times fun b member => reads_legacyBlock legacy (row_length size (List.mem_range.mp member))
  rw [flatMap_row size, List.length_range] at blocks
  rw [Nat.mul_div_cancel_left n (by decide)]
  have here : data <+: ({ s with pos := pos } : InputStream).rest := by
    rw [InputStream.rest_of_good (s := { s with pos := pos }) good]
    exact found
  apply (blocks.yields (s := { s with pos := pos }) good here).bind
  rintro _ _ ⟨rfl, rfl⟩
  apply yields_pure
  rcases legacy with rfl | rfl | rfl <;> rfl

theorem wordAt_packed {shape : List Int} {P : Bytes} {i : Nat} (inside : i < P.length / 4) :
    (⟨.uint32, shape, (packedWords P).map .inl⟩ : MlxArray ℚ).wordAt i = field 32 P i := by
  have cell : ((packedWords P).map (Sum.inl : UInt32 → UInt32 ⊕ ℚ))[i]? =
      some (.inl (UInt32.ofNat (fromLittleEndian (row 4 P i)))) := by
    rw [List.getElem?_map, packedWords, List.getElem?_map, runsOf, List.getElem?_map, List.getElem?_range inside]
    rfl
  have word : fromLittleEndian (row 4 P i) < 2 ^ 32 := by
    rw [fromLittleEndian_row]
    exact Nat.mod_lt _ (by decide)
  rw [MlxArray.wordAt, cell]
  show (UInt32.ofNat (fromLittleEndian (row 4 P i))).toNat = _
  rw [UInt32.toNat_ofNat_of_lt' word, fromLittleEndian_row]

theorem numberAt_of_getElem? {a : MlxArray ℚ} {i : Nat} {x : ℚ} (cell : a.cells[i]? = some (.inr x)) :
    a.numberAt i = x := by
  rw [MlxArray.numberAt, cell]

section
variable (type groups : Nat) (lead : List Int) (blocks : List (LegacyBlock ℚ))

theorem affineArrays_shapes :
    let qa := affineArrays type (lead ++ [((32 * groups : Nat) : Int)]) blocks
    qa.weight.shape.getLastD 0 = (groups * legacyBits type : Nat) ∧ qa.scales.shape.getLastD 0 = groups ∧
      qa.biases.shape.getLastD 0 = groups := by
  have words : (((32 * groups : Nat) : Int) * (legacyBits type : Int)).tdiv 32 = (groups * legacyBits type : Nat) := by
    rw [Int.natCast_mul, Int.mul_assoc, ← Int.natCast_mul]
    exact Int.mul_tdiv_cancel_left _ (show (32 : Int) ≠ 0 by decide)
  have params : ((32 * groups : Nat) : Int).tdiv 32 = groups := by
    rw [Int.natCast_mul]
    exact Int.mul_tdiv_cancel_left _ (show (32 : Int) ≠ 0 by decide)
  simp only [affineArrays, List.getLastD_concat, words, params]
  exact ⟨trivial, trivial, trivial⟩

theorem affineArrays_columns :
    let qa := affineArrays type (lead ++ [((32 * groups : Nat) : Int)]) blocks
    qa.weight.columns = groups * legacyBits type ∧ qa.scales.columns = groups ∧ qa.biases.columns = groups := by
  obtain ⟨weight, scales, biases⟩ := affineArrays_shapes type groups lead blocks
  simp only [MlxArray.columns, weight, scales, biases, Int.toNat_natCast]
  exact ⟨trivial, trivial, trivial⟩

theorem affineArrays_bits (positive : 0 < groups) :
    let qa := affineArrays type (lead ++ [((32 * groups : Nat) : Int)]) blocks
    derivedBits qa.weight qa.scales = legacyBits type := by
  obtain ⟨weight, scales, _⟩ := affineArrays_shapes type groups lead blocks
  have some : 0 < (groups : Int) := by omega
  simp only [derivedBits, weight, scales, if_pos some]
  rw [Int.natCast_mul]
  exact Int.mul_tdiv_cancel_left _ (by omega)

end

section
variable {type rows groups : Nat} {lead : List Int} {data : Bytes} (legacy : isLegacyQuant type)
  (size : data.length = rows * groups * legacyBlockBytes type)
include legacy size

/-- The packed bytes of all blocks, and those of one. -/
theorem legacyBlocks_packed :
    ((legacyBlocks type (rows * groups) data).flatMap (·.packed)).length = rows * groups * (4 * legacyBits type) ∧
      ∀ b < rows * groups, row (4 * legacyBits type) ((legacyBlocks type (rows * groups) data).flatMap (·.packed)) b =
        (legacyBlock ℚ type (row (legacyBlockBytes type) data b)).packed := by
  have each : ∀ b < rows * groups,
      (legacyBlock ℚ type (row (legacyBlockBytes type) data b)).packed.length = 4 * legacyBits type :=
    fun b inside => legacyBlock_packed_length legacy (row_length size inside)
  rw [legacyBlocks, List.flatMap_map]
  exact ⟨length_flatMap_rows each, fun b inside => row_flatMap each inside⟩

/-- The packed rows follow each other without gaps, so the bits of element `c` of row `r` are those of its block. -/
theorem affineArrays_quant {r c : Nat} (inRow : r < rows) (inColumn : c < 32 * groups) :
    (affineArrays type (lead ++ [((32 * groups : Nat) : Int)]) (legacyBlocks type (rows * groups) data)).quant
        (legacyBits type) r c =
      field (legacyBits type) (legacyBlock ℚ type (row (legacyBlockBytes type) data (r * groups + c / 32))).packed
        (c % 32) := by
  have inside : r * groups + c / 32 < rows * groups := digit_lt inRow (Nat.div_lt_of_lt_mul inColumn)
  obtain ⟨length, packed⟩ := legacyBlocks_packed legacy size
  obtain ⟨columns, _⟩ := affineArrays_columns type groups lead (legacyBlocks type (rows * groups) data)
  rw [QuantArrays.quant, columns, affineArrays]
  generalize (legacyBlocks type (rows * groups) data).flatMap (·.packed) = P at length packed
  have fits : c * legacyBits type % 32 + legacyBits type ≤ 32 := by
    rcases legacy with rfl | rfl | rfl
    · show c * 4 % 32 + 4 ≤ 32
      omega
    · show c * 4 % 32 + 4 ≤ 32
      omega
    · show c * 8 % 32 + 8 ≤ 32
      omega
  have word : r * (groups * legacyBits type) + c * legacyBits type / 32 =
      (32 * (r * groups) + c) * legacyBits type / 32 := by
    rw [Nat.add_mul, Nat.mul_assoc 32, Nat.mul_add_div (by decide), Nat.mul_assoc]
  have shift : c * legacyBits type % 32 = (32 * (r * groups) + c) * legacyBits type % 32 := by
    rw [Nat.add_mul, Nat.mul_assoc 32, Nat.mul_add_mod]
  have stored : (32 * (r * groups) + c) * legacyBits type / 32 < P.length / 4 := by
    have positive : 0 < legacyBits type := by
      rcases legacy with rfl | rfl | rfl <;> decide
    have below : 32 * (r * groups) + c < 32 * (rows * groups) := by
      rw [Nat.mul_left_comm, Nat.mul_left_comm 32]
      exact digit_lt inRow inColumn
    have whole : rows * groups * (4 * legacyBits type) / 4 = rows * groups * legacyBits type := by
      rw [Nat.mul_left_comm]
      exact Nat.mul_div_cancel_left _ (by decide)
    rw [length, whole]
    apply Nat.div_lt_of_lt_mul
    rw [← Nat.mul_assoc 32 (rows * groups)]
    exact Nat.mul_lt_mul_of_pos_right below positive
  rw [word, wordAt_packed stored, shift, field_of_word P _ (by rw [← shift]; exact fits), ← packed _ inside,
    field_row (n := 32) P (by omega) (Nat.mod_lt c (by decide)), Nat.mul_add, Nat.add_assoc, Nat.div_add_mod]

/-- Element `c` of row `r` is element `c % 32` of its group, the block it was made from. -/
theorem affineArrays_value {r c : Nat} (inRow : r < rows) (inColumn : c < 32 * groups) :
    (affineArrays type (lead ++ [((32 * groups : Nat) : Int)]) (legacyBlocks type (rows * groups) data)).value 32
        (legacyBits type) r c =
      ggmlValue type (row (legacyBlockBytes type) data (r * groups + c / 32)) (c % 32) := by
  have inside : r * groups + c / 32 < rows * groups := digit_lt inRow (Nat.div_lt_of_lt_mul inColumn)
  have element : c % 32 < 32 := Nat.mod_lt c (by decide)
  have block : (legacyBlocks type (rows * groups) data)[r * groups + c / 32]? =
      some (legacyBlock ℚ type (row (legacyBlockBytes type) data (r * groups + c / 32))) := by
    rw [legacyBlocks, List.getElem?_map, List.getElem?_range inside]
    rfl
  obtain ⟨_, scales, biases⟩ := affineArrays_columns type groups lead
    (legacyBlocks type (rows * groups) data)
  rw [QuantArrays.value, scales, biases, affineArrays_quant legacy size inRow inColumn,
    ← legacyBlock_value legacy (row_length size inside) element]
  congr 1
  · congr 1
    apply numberAt_of_getElem?
    rw [affineArrays, List.getElem?_map, block]
    rfl
  · apply numberAt_of_getElem?
    rw [affineArrays, List.getElem?_map, block]
    rfl

/-- The repacked arrays of a tensor of `rows` rows of `groups` blocks each: the width `index_gguf_quant` derives is that of
the quants, and unpacking element `c` of row `r` gives ggml's value for element `c % 32` of block `c / 32` of that row. -/
theorem extractLegacyQuant_value {pos : Nat} {s : InputStream} (good : s.failed = false) (small : pos < 2 ^ 63)
    (count : numElements lead = rows) (found : data <+: s.bytes.drop pos) :
    Yields (extractLegacyQuant pos (lead ++ [((32 * groups : Nat) : Int)]) type) s fun (qa : QuantArrays ℚ) _ =>
      ∀ r < rows, ∀ c < 32 * groups, qa.value 32 (derivedBits qa.weight qa.scales).toNat r c =
        ggmlValue type (row (legacyBlockBytes type) data (r * groups + c / 32)) (c % 32) := by
  have elements : numElements (lead ++ [((32 * groups : Nat) : Int)]) = (32 * (rows * groups) : Nat) := by
    rw [numElements, List.foldl_append, List.foldl_cons, List.foldl_nil]
    show numElements lead * _ = _
    rw [count]
    push_cast
    ring
  refine (extractLegacyQuant_run legacy good small elements size found).mono ?_
  rintro qa _ rfl r inRow c inColumn
  rw [affineArrays_bits type groups lead _ (by omega), Int.toNat_natCast]
  exact affineArrays_value legacy size inRow inColumn

end

/-- A `Q4_0` block of scale 1 with both nibbles of byte `k` equal to `k`. -/
def stairs : Bytes := [0x00, 0x3C] ++ (List.range 16).map fun k => UInt8.ofNat (17 * k)

theorem extractLegacyQuant_value_stairs :
    Yields (extractLegacyQuant 0 [1, 32] kGgmlQ4_0) { bytes := stairs, unset := fun _ => 0 } fun (qa : QuantArrays ℚ) _ =>
      qa.value 32 (derivedBits qa.weight qa.scales).toNat 0 17 = -7 := by
  have run := @extractLegacyQuant_value kGgmlQ4_0 1 1 [1] stairs (.inl rfl) (by decide) 0
    { bytes := stairs, unset := fun _ => 0 } rfl (by decide) rfl List.prefix_rfl
  apply run.mono
  intro qa _ values
  have value : ggmlValue kGgmlQ4_0 (row (legacyBlockBytes kGgmlQ4_0) stairs (0 * 1 + 17 / 32)) (17 % 32) = -7 := by
    decide +kernel
  rw [← value]
  exact values 0 (by decide) 17 (by decide)

end Mlxforge
