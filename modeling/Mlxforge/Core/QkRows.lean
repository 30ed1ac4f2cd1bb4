import Mlxforge.Core.GgufReading
import Mlxforge.Lib.Rows

/-!
The row order of the q/k projections. The converter interleaves the two halves of every head for one architecture;
the loader undoes that for all of them.
-/

namespace Mlxforge

open StreamReader

variable {R : Type}

/-! ### The two row orders -/

/-- The row of the checkpoint that the converter writes at row `g`: element `b` of pair `a` of a head is element `a` of
its half `b`. -/
def permuteIndex (headDim g : Nat) : Nat :=
  let half := headDim / 2
  let h := g / headDim
  let rem := g % headDim
  h * headDim + rem % 2 * half + rem / 2

theorem place_lt {half a b : Nat} (inHalf : a < half) (inPair : b < 2) :
    b * half + a < 2 * half ∧ a * 2 + b < 2 * half := by
  have pairs : b = 0 ∨ b = 1 := by omega
  rcases pairs with rfl | rfl <;> omega

theorem permuteIndex_eq {half a b : Nat} (h : Nat) (inHalf : a < half) (inPair : b < 2) :
    permuteIndex (2 * half) (h * (2 * half) + (a * 2 + b)) = h * (2 * half) + (b * half + a) := by
  obtain ⟨head, rem⟩ := divMod_add (q := h) (place_lt inHalf inPair).2
  obtain ⟨pair, side⟩ := divMod_add (q := a) inPair
  have middle : 2 * half / 2 = half := Nat.mul_div_cancel_left half (by decide)
  simp only [permuteIndex, head, rem, pair, side, middle]
  exact Nat.add_assoc _ _ _

theorem unpermuteIndex_eq {half a b : Nat} (h : Nat) (inHalf : a < half) (inPair : b < 2) :
    unpermuteIndex ((2 * half : Nat) : Int) ((h * (2 * half) + (b * half + a) : Nat) : Int) =
      ((h * (2 * half) + (a * 2 + b) : Nat) : Int) := by
  obtain ⟨head, rem⟩ := divMod_add (q := h) (place_lt inHalf inPair).1
  obtain ⟨side, pair⟩ := divMod_add (q := b) inHalf
  have middle : ((2 * half : Nat) : Int).tdiv 2 = half := by
    rw [show (2 : Int) = ((2 : Nat) : Int) from rfl, ← Int.ofNat_tdiv, Nat.mul_div_cancel_left half (by decide)]
  unfold unpermuteIndex
  simp only [middle, ← Int.ofNat_tdiv, ← Int.ofNat_tmod, head, rem, side, pair]
  push_cast
  ring

/-- Every row is element `a` of half `b` of some head. -/
theorem row_place {heads half r : Nat} (inside : r < heads * (2 * half)) :
    ∃ h < heads, ∃ a < half, ∃ b < 2, r = h * (2 * half) + (b * half + a) := by
  obtain ⟨h, inHeads, rem, inHead, rfl⟩ := place_of_lt inside
  obtain ⟨b, inPair, a, inHalf, rfl⟩ := place_of_lt inHead
  exact ⟨h, inHeads, a, inHalf, b, inPair, rfl⟩

/-- The row that the loader takes, as a row number. -/
def unpermuteRow (headDim r : Nat) : Nat := (unpermuteIndex headDim r).toNat

theorem unpermuteRow_eq {half a b : Nat} (h : Nat) (inHalf : a < half) (inPair : b < 2) :
    unpermuteRow (2 * half) (h * (2 * half) + (b * half + a)) = h * (2 * half) + (a * 2 + b) := by
  rw [unpermuteRow, unpermuteIndex_eq h inHalf inPair, Int.toNat_natCast]

theorem unpermuteRow_lt {heads half r : Nat} (inside : r < heads * (2 * half)) :
    unpermuteRow (2 * half) r < heads * (2 * half) := by
  obtain ⟨h, inHeads, a, inHalf, b, inPair, rfl⟩ := row_place inside
  rw [unpermuteRow_eq h inHalf inPair]
  exact digit_lt inHeads (place_lt inHalf inPair).2

theorem permuteIndex_lt {heads half g : Nat} (inside : g < heads * (2 * half)) :
    permuteIndex (2 * half) g < heads * (2 * half) := by
  obtain ⟨h, inHeads, rem, inHead, rfl⟩ := place_of_lt inside
  rw [Nat.mul_comm 2] at inHead
  obtain ⟨a, inHalf, b, inPair, rfl⟩ := place_of_lt inHead
  rw [permuteIndex_eq h inHalf inPair]
  exact digit_lt inHeads (place_lt inHalf inPair).1

theorem permuteIndex_unpermuteRow {heads half r : Nat} (inside : r < heads * (2 * half)) :
    permuteIndex (2 * half) (unpermuteRow (2 * half) r) = r := by
  obtain ⟨h, _, a, inHalf, b, inPair, rfl⟩ := row_place inside
  rw [unpermuteRow_eq h inHalf inPair, permuteIndex_eq h inHalf inPair]

theorem unpermuteIndex_nonneg {heads half r : Nat} (inside : r < heads * (2 * half)) :
    unpermuteIndex ((2 * half : Nat) : Int) (r : Int) = (unpermuteRow (2 * half) r : Nat) := by
  obtain ⟨h, _, a, inHalf, b, inPair, rfl⟩ := row_place inside
  rw [unpermuteRow_eq h inHalf inPair, unpermuteIndex_eq h inHalf inPair]

/-! ### Arrays of rows -/

namespace MlxArray

/-- The elements of one row. -/
def width (a : MlxArray R) : Nat := (numElements a.shape.tail).toNat

/-- The array has `n` rows. -/
structure HasRows (a : MlxArray R) (n : Nat) : Prop where
  shape : ∃ tail, a.shape = (n : Int) :: tail
  cells : a.cells.length = n * a.width

/-- The array with row `order i` at row `i`. -/
def reorder (a : MlxArray R) (order : Nat → Nat) (n : Nat) : MlxArray R :=
  { a with cells := (List.range n).flatMap fun i => row a.width a.cells (order i) }

variable {a : MlxArray R} {n : Nat} {order order' : Nat → Nat}

theorem row_reorder (rows : a.HasRows n) (into : ∀ i < n, order i < n) {i : Nat} (inside : i < n) :
    row a.width (a.reorder order n).cells i = row a.width a.cells (order i) :=
  row_flatMap (f := fun i => row a.width a.cells (order i)) (fun i below => row_length rows.cells (into i below)) inside

theorem reorder_reorder (rows : a.HasRows n) (into : ∀ i < n, order i < n) (into' : ∀ i < n, order' i < n) :
    (a.reorder order n).reorder order' n = a.reorder (fun i => order (order' i)) n := by
  have cells : ((a.reorder order n).reorder order' n).cells = (a.reorder (fun i => order (order' i)) n).cells := by
    apply List.flatMap_congr
    intro i member
    exact row_reorder rows into (into' i (List.mem_range.mp member))
  exact congrArg (fun c => { a with cells := c }) cells

/-- Reordering changes nothing exactly when the rows it exchanges are equal. -/
theorem reorder_eq_iff (rows : a.HasRows n) (into : ∀ i < n, order i < n) :
    a.reorder order n = a ↔ ∀ i < n, row a.width a.cells (order i) = row a.width a.cells i := by
  rw [← flatMap_eq_iff rows.cells fun i below => row_length rows.cells (into i below)]
  constructor
  · intro same
    exact congrArg MlxArray.cells same
  · intro same
    unfold reorder
    rw [same]

theorem takeRows_of_ok {a' : MlxArray R} (rows : ∃ tail, a.shape = (n : Int) :: tail)
    (taken : a.takeRows ((List.range n).map fun i => (order i : Int)) = .ok a') : a' = a.reorder order n := by
  obtain ⟨tail, shape⟩ := rows
  unfold takeRows at taken
  rw [shape] at taken
  simp only at taken
  split at taken
  · cases taken
  · obtain rfl := Except.ok.inj taken
    have width : a.width = (numElements tail).toNat := by rw [MlxArray.width, shape, List.tail_cons]
    have size : ((List.range n).map fun i => (order i : Int)).length = n := by simp
    have natural : ∀ i : Nat, ¬((order i : Int) < 0) := fun i => by omega
    unfold reorder
    rw [width, size, ← shape, List.flatMap_map]
    simp only [natural, if_false, Int.toNat_natCast]
    rfl

end MlxArray

/-! ### The loader -/

variable [Floats R]

/-- A run of the loader that returns `g`, with the metadata and the tensors it found in the file. -/
structure Loading (stack : Nat) (file : Bytes) (unset : Nat → Nat → UInt8) (m : GgufMetadata R) (tensors : Tensors R)
    (g : GgufModel R) : Prop where
  metadata : onFile (parseGgufMetadata stack) file (unset 0) = .ok m
  tensors : loadGgufTensors stack (gmIntOr m (.ofAscii "general.alignment") 32 % 2 ^ 64).toNat file
    (fun i => unset (i + 1)) = .ok tensors
  model : loadGgufModel stack file unset = .ok g

variable {stack : Nat} {file : Bytes} {unset : Nat → Nat → UInt8} {m : GgufMetadata R} {tensors : Tensors R}
  {g : GgufModel R}

theorem loading_of_ok (model : loadGgufModel stack file unset = .ok g) :
    ∃ m tensors, Loading stack file unset m tensors g := by
  have ran := model
  unfold loadGgufModel at ran
  obtain ⟨m, metadata, ran⟩ := bind_ok ran
  obtain ⟨head, _, ran⟩ := bind_ok ran
  obtain ⟨tensors, tensorsOk, _⟩ := bind_ok ran
  exact ⟨m, tensors, metadata, tensorsOk, model⟩

/-- The weights are the tensors under their canonical names with the q/k rows taken in the loader's order. -/
theorem Loading.unpermuted (loading : Loading stack file unset m tensors g) :
    unpermuteQk (canonicalTensors tensors) g.head.config = .ok g.weights := by
  have ran := loading.model
  unfold loadGgufModel at ran
  rw [loading.metadata, ok_bind] at ran
  obtain ⟨head, _, ran⟩ := bind_ok ran
  obtain ⟨tensors', tensorsOk, ran⟩ := bind_ok ran
  obtain rfl := Except.ok.inj (tensorsOk.symm.trans loading.tensors)
  unfold buildModel at ran
  obtain ⟨weights, done, ran⟩ := bind_ok ran
  obtain ⟨quant, _, ran⟩ := bind_ok ran
  obtain rfl := pure_ok ran
  exact done

/-- The names of the q/k projections' tensors, each with its number of heads. -/
def projectionKeys (c : GgufConfig R) : List (Bytes × Int) := (List.range c.nLayers.toNat).flatMap (qkKeys c)

/-- What the converter makes of a q/k projection's array. -/
def convertQkRows (arch : Bytes) (heads headDim : Nat) (a : MlxArray R) : MlxArray R :=
  if arch = .ofAscii "llama" then a.reorder (permuteIndex headDim) (heads * headDim) else a

/-- `hf` holds the q/k projections in the checkpoint's row order, as `half` pairs a head, and the file has them as the
converter leaves them. -/
structure Converted (m : GgufMetadata R) (tensors : Tensors R) (c : GgufConfig R) (half : Nat) (hf : Bytes → MlxArray R) :
    Prop where
  headDim : c.headDim = (2 * half : Nat)
  heads : 0 ≤ c.nHeads ∧ 0 ≤ c.nKvHeads
  rows : ∀ k ∈ projectionKeys c, k.1 ∈ canonicalTensors tensors → (hf k.1).HasRows (k.2.toNat * (2 * half))
  file : ∀ k ∈ projectionKeys c, ∀ a, (canonicalTensors tensors).lookup k.1 = some a →
    a = convertQkRows (gmStr m (.ofAscii "general.architecture")) k.2.toNat (2 * half) (hf k.1)

/-- The model has every q/k projection that the file has, in the checkpoint's row order. -/
def HfRowOrder (tensors : Tensors R) (g : GgufModel R) (hf : Bytes → MlxArray R) : Prop :=
  ∀ k ∈ projectionKeys g.head.config, k.1 ∈ canonicalTensors tensors → g.weights.lookup k.1 = some (hf k.1)

/-- The rows that the converter would exchange are equal. -/
def Unmoved (heads half : Nat) (a : MlxArray R) : Prop :=
  ∀ h < heads, ∀ i < half, ∀ b < 2,
    row a.width a.cells (h * (2 * half) + (i * 2 + b)) = row a.width a.cells (h * (2 * half) + (b * half + i))

omit [Floats R] in
theorem reorder_eq_iff_unmoved {heads half : Nat} {a : MlxArray R} (rows : a.HasRows (heads * (2 * half))) :
    a.reorder (unpermuteRow (2 * half)) (heads * (2 * half)) = a ↔ Unmoved heads half a := by
  rw [MlxArray.reorder_eq_iff rows fun _ => unpermuteRow_lt]
  constructor
  · intro same h inHeads i inHalf b inPair
    have here := same _ (digit_lt inHeads (place_lt inHalf inPair).1)
    rwa [unpermuteRow_eq h inHalf inPair] at here
  · intro unmoved r inside
    obtain ⟨h, inHeads, i, inHalf, b, inPair, rfl⟩ := row_place inside
    rw [unpermuteRow_eq h inHalf inPair]
    exact unmoved h inHeads i inHalf b inPair

omit [Floats R] in
/-- The loader's order undoes the converter's. -/
theorem unpermute_permute {heads half : Nat} {a : MlxArray R} (rows : a.HasRows (heads * (2 * half))) :
    (a.reorder (permuteIndex (2 * half)) (heads * (2 * half))).reorder (unpermuteRow (2 * half)) (heads * (2 * half)) =
      a := by
  rw [MlxArray.reorder_reorder rows (fun _ => permuteIndex_lt) fun _ => unpermuteRow_lt]
  apply (MlxArray.reorder_eq_iff rows fun r inside => ?_).mpr
  · intro r inside
    rw [permuteIndex_unpermuteRow inside]
  · rw [permuteIndex_unpermuteRow inside]
    exact inside

omit [Floats R] in
theorem unpermuteQkRows_of_ok {heads half : Nat} {a a' : MlxArray R}
    (rows : ∃ tail, a.shape = ((heads * (2 * half) : Nat) : Int) :: tail)
    (taken : unpermuteQkRows a heads (2 * half : Nat) = .ok a') :
    a' = a.reorder (unpermuteRow (2 * half)) (heads * (2 * half)) := by
  have size : (heads : Int) * ((2 * half : Nat) : Int) = (heads * (2 * half) : Nat) := by push_cast; rfl
  have index : (List.range (heads * (2 * half))).map (fun i : Nat => unpermuteIndex (2 * half : Nat) (i : Int)) =
      (List.range (heads * (2 * half))).map fun i => ((unpermuteRow (2 * half) i : Nat) : Int) :=
    List.map_congr_left fun r member => unpermuteIndex_nonneg (List.mem_range.mp member)
  unfold unpermuteQkRows at taken
  rw [size] at taken
  simp only [Int.toNat_natCast, index, Int.not_lt.mpr (Int.natCast_nonneg _), if_false] at taken
  exact MlxArray.takeRows_of_ok rows taken

/-- Whatever order the file has them in, the loader takes the rows of a projection in one order. -/
theorem Loading.projection {half : Nat} {hf : Bytes → MlxArray R} (loading : Loading stack file unset m tensors g)
    (converted : Converted m tensors g.head.config half hf) {k : Bytes × Int} (key : k ∈ projectionKeys g.head.config)
    (present : k.1 ∈ canonicalTensors tensors) :
    g.weights.lookup k.1 = some ((convertQkRows (gmStr m (.ofAscii "general.architecture")) k.2.toNat (2 * half)
      (hf k.1)).reorder (unpermuteRow (2 * half)) (k.2.toNat * (2 * half))) := by
  obtain ⟨a, found⟩ := Option.isSome_iff_exists.mp (AList.lookup_isSome.mpr present)
  have written := converted.file k key a found
  obtain ⟨tail, shape⟩ := (converted.rows k key present).shape
  obtain ⟨taken, -, -⟩ := foldlM_unpermuteKey (qkKeys_nodup _ _) loading.unpermuted
  obtain ⟨a', ran, set⟩ := taken k key a found
  have heads : k.2 = (k.2.toNat : Int) := by
    obtain ⟨i, _, member⟩ := List.mem_flatMap.mp key
    rcases qkKeys_heads member with same | same
    · rw [same, Int.toNat_of_nonneg converted.heads.1]
    · rw [same, Int.toNat_of_nonneg converted.heads.2]
  rw [heads, converted.headDim] at ran
  have sameShape : a.shape = (hf k.1).shape := by
    rw [written, convertQkRows]
    split <;> rfl
  rw [set, unpermuteQkRows_of_ok ⟨tail, sameShape.trans shape⟩ ran, ← written]

/-- The loaded rows are the checkpoint's exactly where the converter has exchanged them or nothing distinguishes those it
would have exchanged. -/
theorem hfRowOrder_iff {half : Nat} {hf : Bytes → MlxArray R} (loading : Loading stack file unset m tensors g)
    (converted : Converted m tensors g.head.config half hf) :
    HfRowOrder tensors g hf ↔ gmStr m (.ofAscii "general.architecture") = .ofAscii "llama" ∨
      ∀ k ∈ projectionKeys g.head.config, k.1 ∈ canonicalTensors tensors → Unmoved k.2.toNat half (hf k.1) := by
  by_cases llama : gmStr m (.ofAscii "general.architecture") = .ofAscii "llama"
  · refine iff_of_true (fun k key present => ?_) (.inl llama)
    rw [loading.projection converted key present, convertQkRows, if_pos llama,
      unpermute_permute (converted.rows k key present)]
  · have loaded : ∀ k ∈ projectionKeys g.head.config, k.1 ∈ canonicalTensors tensors →
        (g.weights.lookup k.1 = some (hf k.1) ↔ Unmoved k.2.toNat half (hf k.1)) := by
      intro k key present
      rw [loading.projection converted key present, convertQkRows, if_neg llama, Option.some.injEq]
      exact reorder_eq_iff_unmoved (converted.rows k key present)
    rw [or_iff_right llama]
    constructor
    · exact fun order k key present => (loaded k key present).mp (order k key present)
    · exact fun unmoved k key present => (loaded k key present).mpr (unmoved k key present)

omit [Floats R] in
/-- Heads of a single pair have nothing to exchange. -/
theorem unmoved_of_one (heads : Nat) (a : MlxArray R) : Unmoved heads 1 a := by
  intro h _ i inHalf b _
  obtain rfl : i = 0 := by omega
  rw [Nat.zero_mul, Nat.zero_add, Nat.mul_one, Nat.mul_one, Nat.add_zero]

/-- The sizes of the model are those that the metadata gives. -/
theorem Loading.config (loading : Loading stack file unset m tensors g) : ∃ c, configFromGguf m = .ok c ∧
    g.head.config.nLayers = c.nLayers ∧ g.head.config.nHeads = c.nHeads ∧ g.head.config.nKvHeads = c.nKvHeads ∧
      g.head.config.headDim = c.headDim := by
  have ran := loading.model
  unfold loadGgufModel at ran
  rw [loading.metadata, ok_bind] at ran
  obtain ⟨head, headOk, ran⟩ := bind_ok ran
  obtain ⟨tensors', _, ran⟩ := bind_ok ran
  unfold buildModel at ran
  obtain ⟨weights, _, ran⟩ := bind_ok ran
  obtain ⟨quant, _, ran⟩ := bind_ok ran
  obtain rfl := pure_ok ran
  unfold modelHeadFromMetadata at headOk
  obtain ⟨c, ok, headOk⟩ := bind_ok headOk
  obtain rfl := pure_ok headOk
  exact ⟨c, ok, rfl, rfl, rfl, rfl⟩

/-! ### A model with one head of two pairs -/

namespace GgufFile

/-- Its query projection holds 0, 1, 2 and 3 in four rows. -/
def twoPairs : GgufFile where
  version := 3
  entries := [⟨.ofAscii "general.architecture", .str (.ofAscii "qwen3")⟩,
    ⟨.ofAscii "qwen3.block_count", .scalar 4 1⟩, ⟨.ofAscii "qwen3.embedding_length", .scalar 4 1⟩,
    ⟨.ofAscii "qwen3.attention.head_count", .scalar 4 1⟩, ⟨.ofAscii "qwen3.attention.key_length", .scalar 4 4⟩,
    ⟨.ofAscii "qwen3.attention.layer_norm_rms_epsilon", .scalar 6 0⟩]
  tensors := [⟨.ofAscii "blk.0.attn_q.weight", kGgmlF32, [1, 4], 0⟩]
  data := List.replicate 15 0 ++ [0, 0x3F800000, 0x40000000, 0x40400000].flatMap fun w : Nat => littleEndian 4 w

theorem twoPairs_wellFormed : WellFormed ℚ twoPairs where
  version := by decide
  entries := by
    refine ⟨by decide, fun e member => ?_⟩
    simp only [twoPairs, List.mem_cons, List.not_mem_nil, or_false] at member
    rcases member with rfl | rfl | rfl | rfl | rfl | rfl
    · exact ⟨by decide, (by decide : 5 < 2 ^ 63)⟩
    all_goals exact ⟨by decide, by decide, by decide⟩
  geometry := by
    intro e member
    simp only [twoPairs, List.mem_cons, List.not_mem_nil, or_false] at member
    rcases member with rfl | rfl | rfl | rfl | rfl | rfl <;> rintro known t raw same
    · cases same
    · obtain ⟨rfl, rfl⟩ := GgufValue.scalar.inj same
      decide
    · obtain ⟨rfl, rfl⟩ := GgufValue.scalar.inj same
      decide
    · obtain ⟨rfl, rfl⟩ := GgufValue.scalar.inj same
      decide
    · obtain ⟨rfl, rfl⟩ := GgufValue.scalar.inj same
      decide
    · exact absurd known (by decide)
  tensors := by
    refine ⟨by decide, fun t member => ?_⟩
    rw [List.mem_singleton.mp member]
    exact ⟨by decide, by decide, by decide, by decide, by decide, by decide, by decide, by decide, by decide⟩
  data := by decide +kernel
  size := by decide +kernel

def twoPairsMetadata : GgufMetadata ℚ := metadataOf twoPairs.entries

def twoPairsTensors : Tensors ℚ := Table.emplace ∅ (.ofAscii "blk.0.attn_q.weight")
  ⟨.float32, [4, 1], [.inr 0, .inr 1, .inr 2, .inr 3]⟩

def twoPairsRows : MlxArray ℚ := ⟨.float16, [4, 1], [.inr 0, .inr 1, .inr 2, .inr 3]⟩

theorem twoPairs_tensors : loadGgufTensors 3 (gmIntOr twoPairsMetadata (.ofAscii "general.alignment") 32 % 2 ^ 64).toNat
    twoPairs.encode (fun _ _ => 0) = .ok twoPairsTensors := by
  have alignment : max 1 (gmIntOr twoPairsMetadata (.ofAscii "general.alignment") 32 % 2 ^ 64).toNat = 32 := by decide
  have start : alignUp twoPairs.directoryEnd 32 = 352 := by decide +kernel
  have found : ([0, 0x3F800000, 0x40000000, 0x40400000].flatMap fun w : Nat => littleEndian 4 w) <+:
      twoPairs.encode.drop 352 := by decide +kernel
  have read := readDenseTensor_float32 (R := ℚ) (s := { bytes := twoPairs.encode, unset := fun _ => 0 })
    rfl (by decide) (show 0 ≤ numElements [4, 1] by decide) (by decide) found
  obtain ⟨a, s', ran, rfl, -⟩ := read
  have cells : float32Array ℚ [4, 1] ([0, 0x3F800000, 0x40000000, 0x40400000].flatMap fun w : Nat => littleEndian 4 w) =
      ⟨.float32, [4, 1], [.inr 0, .inr 1, .inr 2, .inr 3]⟩ :=
    congrArg (MlxArray.mk .float32 [4, 1]) (by decide +kernel)
  have loaded : loadTensor 352 ∅ ⟨.ofAscii "blk.0.attn_q.weight", kGgmlF32, [1, 4], 0⟩
      { bytes := twoPairs.encode, unset := fun _ => 0 } = .ok (twoPairsTensors, s') := by
    unfold loadTensor
    rw [if_pos (.inl rfl)]
    change (readDenseTensor 352 [4, 1] kGgmlF32 >>= _) _ = _
    rw [bind_of_ok ran, cells]
    rfl
  unfold loadGgufTensors
  rw [alignment, parseGgufDirectory_encode twoPairs_wellFormed (by decide) _ 32, start, ok_bind]
  change onFile (loadTensor 352 ∅ ⟨.ofAscii "blk.0.attn_q.weight", kGgmlF32, [1, 4], 0⟩ >>= pure) _ _ = _
  unfold onFile
  rw [bind_of_ok loaded]
  rfl

theorem twoPairs_loadable : Loadable twoPairsTensors := by
  apply loadable_empty.emplace
  · exact fun _ => ⟨by decide, by decide⟩
  · intro scales
    exact absurd scales (by decide)

theorem twoPairs_loading : ∃ g, Loading 3 twoPairs.encode (fun _ _ => 0) twoPairsMetadata twoPairsTensors g := by
  have metadata : onFile (parseGgufMetadata 3) twoPairs.encode (fun _ => 0) = .ok twoPairsMetadata :=
    parseGgufMetadata_encode twoPairs_wellFormed (by decide) _
  have accepted : Accepted twoPairsMetadata := ⟨.ofAscii "qwen3", by decide, by decide, by decide⟩
  obtain ⟨head, headOk, q, k⟩ := accepted.head (metadataOf_sized twoPairs_wellFormed)
  obtain ⟨g, built⟩ := buildModel_ok twoPairs_loadable q k
  refine ⟨g, metadata, twoPairs_tensors, ?_⟩
  unfold loadGgufModel
  rw [metadata, ok_bind, headOk, ok_bind]
  change loadGgufTensors 3 _ twoPairs.encode (fun _ _ => 0) >>= _ = _
  rw [twoPairs_tensors]
  exact built

theorem twoPairs_keys {g : GgufModel ℚ}
    (loading : Loading 3 twoPairs.encode (fun _ _ => 0) twoPairsMetadata twoPairsTensors g) :
    g.head.config.headDim = 4 ∧ 0 ≤ g.head.config.nHeads ∧ 0 ≤ g.head.config.nKvHeads ∧
      projectionKeys g.head.config = qkTails.map fun tail => (.ofAscii "model.layers.0.self_attn." ++ tail, 1) := by
  obtain ⟨c, ok, layers, heads, kvHeads, headDim⟩ := loading.config
  have read : ∀ (field : GgufConfig ℚ → Int) (v : Int),
      ((configFromGguf twoPairsMetadata).toOption.map field) = some v → field c = v := by
    intro field v same
    rw [ok] at same
    exact Option.some.inj same
  rw [read (·.nLayers) 1 (by decide)] at layers
  rw [read (·.nHeads) 1 (by decide)] at heads
  rw [read (·.nKvHeads) 1 (by decide)] at kvHeads
  rw [read (·.headDim) 4 (by decide)] at headDim
  refine ⟨headDim, by omega, by omega, ?_⟩
  unfold projectionKeys
  rw [layers]
  change qkKeys g.head.config 0 ++ [] = _
  unfold qkKeys
  rw [heads, kvHeads]
  decide

theorem twoPairs_canonical : canonicalTensors twoPairsTensors =
    Table.emplace ∅ (.ofAscii "model.layers.0.self_attn.q_proj.weight") twoPairsRows := by
  have key : remapGgufKey (.ofAscii "blk.0.attn_q.weight") =
      some (.ofAscii "model.layers.0.self_attn.q_proj.weight") := by decide
  change addCanonical ∅ ⟨.ofAscii "blk.0.attn_q.weight", _⟩ = _
  unfold addCanonical
  rw [key]
  rfl

theorem twoPairs_converted {g : GgufModel ℚ}
    (loading : Loading 3 twoPairs.encode (fun _ _ => 0) twoPairsMetadata twoPairsTensors g) :
    Converted twoPairsMetadata twoPairsTensors g.head.config 2 fun _ => twoPairsRows := by
  obtain ⟨headDim, heads, kvHeads, keys⟩ := twoPairs_keys loading
  refine ⟨headDim, ⟨heads, kvHeads⟩, fun k key _ => ?_, fun k key a found => ?_⟩
  · rw [keys] at key
    obtain ⟨tail, _, rfl⟩ := List.mem_map.mp key
    exact ⟨⟨[1], rfl⟩, rfl⟩
  · rw [twoPairs_canonical] at found
    rcases Table.lookup_emplace found with before | ⟨-, rfl⟩
    · cases before
    · rw [convertQkRows, if_neg (by decide)]

theorem hfRowOrder_iff_twoPairs : ∃ g : GgufModel ℚ,
    HfRowOrder twoPairsTensors g (fun _ => twoPairsRows) ↔
      gmStr twoPairsMetadata (.ofAscii "general.architecture") = .ofAscii "llama" ∨
        ∀ k ∈ projectionKeys g.head.config, k.1 ∈ canonicalTensors twoPairsTensors → Unmoved k.2.toNat 2 twoPairsRows := by
  obtain ⟨g, loading⟩ := twoPairs_loading
  exact ⟨g, hfRowOrder_iff loading (twoPairs_converted loading)⟩

/-- The file loads, and its query rows come out as 0, 2, 1, 3. -/
theorem qwen_rows_exchanged : ∃ g : GgufModel ℚ,
    loadGgufModel 3 twoPairs.encode (fun _ _ => 0) = .ok g ∧
      gmStr twoPairsMetadata (.ofAscii "general.architecture") = .ofAscii "qwen3" ∧
      (canonicalTensors twoPairsTensors).lookup (.ofAscii "model.layers.0.self_attn.q_proj.weight") = some twoPairsRows ∧
      g.weights.lookup (.ofAscii "model.layers.0.self_attn.q_proj.weight") =
        some ⟨.float16, [4, 1], [.inr 0, .inr 2, .inr 1, .inr 3]⟩ ∧
      ¬HfRowOrder twoPairsTensors g fun _ => twoPairsRows := by
  obtain ⟨g, loading⟩ := twoPairs_loading
  have converted := twoPairs_converted loading
  obtain ⟨-, -, -, keys⟩ := twoPairs_keys loading
  have key : (.ofAscii "model.layers.0.self_attn.q_proj.weight", 1) ∈ projectionKeys g.head.config := by
    rw [keys]
    decide
  have present : .ofAscii "model.layers.0.self_attn.q_proj.weight" ∈ canonicalTensors twoPairsTensors := by
    rw [twoPairs_canonical]
    exact Table.mem_emplace.mpr (.inl rfl)
  have loaded : g.weights.lookup (.ofAscii "model.layers.0.self_attn.q_proj.weight") =
      some ⟨.float16, [4, 1], [.inr 0, .inr 2, .inr 1, .inr 3]⟩ := by
    rw [loading.projection converted key present, convertQkRows, if_neg (by decide)]
    rfl
  refine ⟨g, loading.model, by decide, ?_, loaded, fun order => ?_⟩
  · rw [twoPairs_canonical]
    rfl
  · have same := (order _ key present).symm.trans loaded
    have cells := congrArg MlxArray.cells (Option.some.inj same)
    exact absurd cells (by decide +kernel)

end GgufFile

end Mlxforge
