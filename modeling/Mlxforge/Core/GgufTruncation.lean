import Mlxforge.Core.GgufDirectory
import Mlxforge.Core.GgufWeights
import Mathlib.Data.Rat.Defs

/-!
Loading a GGUF file that ends early. No read is checked, so all that a cut can do is to hide metadata that
`config_from_gguf` asks for; a cut in the tensor directory or in the tensor data goes unnoticed.
-/

namespace Mlxforge

open StreamReader

/-! ### Names that were not read whole -/

theorem blank_append_iff {a b : Bytes} (some : b ≠ []) : Blank (a ++ b) ↔ Blank b := by
  unfold Blank
  rw [List.getLastD_eq_getLast?, List.getLastD_eq_getLast?, List.getLast?_append_of_ne_nil _ some]

theorem Blank.not_endsWith {name suffix : Bytes} (blank : Blank name) (some : suffix ≠ []) (visible : ¬Blank suffix) :
    ¬endsWith name suffix := by
  rintro ⟨base, rfl⟩
  exact visible ((blank_append_iff some).mp blank)

theorem Blank.remapBase {base : Bytes} (blank : Blank base) : remapBase base = none := by
  have other : ∀ {constant : Bytes}, ¬Blank constant → base ≠ constant := by
    rintro constant visible rfl
    exact visible blank
  unfold Mlxforge.remapBase
  rw [if_neg (other (by decide)), if_neg (other (by decide)), if_neg (other (by decide)), if_neg (other (by decide))]
  split_ifs
  · simp only
    split
    · rfl
    · rename_i d rest dropped
      have dot : d = '.'.toUInt8 := by
        have head := List.head?_dropWhile_not (fun x => decide (x ≠ '.'.toUInt8)) (base.drop 4)
        rw [dropped] at head
        simpa using head
      have whole : base = base.take 4 ++ ((base.drop 4).takeWhile (fun x => decide (x ≠ '.'.toUInt8)) ++ d :: rest) := by
        rw [← dropped, List.takeWhile_append_dropWhile, List.take_append_drop]
      rw [whole, ← List.append_assoc, blank_append_iff (by simp)] at blank
      have visible : ∀ p ∈ blockModules, p.1 ≠ [] ∧ ¬Blank ('.'.toUInt8 :: p.1) := by decide
      cases mapped : remapBlockModule rest with
      | none => rfl
      | some name =>
        rw [dot] at blank
        exact absurd blank (visible _ (remapBlockModule_some mapped)).2
  · rfl

theorem Blank.remapGgufKey {name : Bytes} (blank : Blank name) : remapGgufKey name = none := by
  unfold Mlxforge.remapGgufKey
  cases suffixed : nameSuffix name with
  | none => exact blank.remapBase
  | some suffix =>
    obtain ⟨member, base, rfl⟩ := nameSuffix_some suffixed
    have visible : ∀ s ∈ [Bytes.ofAscii ".weight", .ofAscii ".scales", .ofAscii ".biases"], s ≠ [] ∧ ¬Blank s := by decide
    obtain ⟨some, visible⟩ := visible suffix member
    exact absurd ((blank_append_iff some).mp blank) visible

/-! ### Tensors load whatever is read -/

variable {R : Type} [Floats R] {s : InputStream}

theorem vectorSize_of_nonneg {n : Int} (nonneg : 0 ≤ n) : vectorSize n = pure n.toNat := if_neg (Int.not_lt.mpr nonneg)

theorem times_yields {α : Type} {p : GgufReader α} (each : ∀ s, Yields p s fun _ _ => True) :
    ∀ (n : Nat) (s : InputStream), Yields (times p n) s fun _ _ => True
  | 0, _ => yields_pure (a := []) trivial
  | n + 1, s => (each s).bind fun _ _ _ => (times_yields each n _).bind fun _ _ _ => yields_pure trivial

theorem readDenseTensor_yields (pos : Nat) {shape : List Int} (type : Nat) (nonneg : 0 ≤ numElements shape) :
    Yields (readDenseTensor pos shape type) s fun (a : MlxArray R) _ => a.shape = shape := by
  unfold readDenseTensor
  rw [vectorSize_of_nonneg nonneg]
  refine Yields.bind (P := fun _ _ => True) ⟨_, _, rfl, trivial⟩ fun n s₁ _ => ?_
  refine Yields.bind (P := fun _ _ => True) ⟨_, _, rfl, trivial⟩ fun _ s₂ _ => ?_
  split
  · refine Yields.bind (P := fun _ _ => True) ⟨_, _, rfl, trivial⟩ fun buf s₃ _ => ?_
    exact yields_pure rfl
  · refine Yields.bind (P := fun _ _ => True) ⟨_, _, rfl, trivial⟩ fun raw s₃ _ => ?_
    exact yields_pure rfl

theorem readScalar_yields (n : Nat) (s : InputStream) : Yields (readScalar n) s fun _ _ => True :=
  (readScalar_rest n s).mono fun _ _ _ => trivial

theorem readLegacyBlock_yields (type : Nat) (s : InputStream) :
    Yields (readLegacyBlock type) s fun (_ : LegacyBlock R) _ => True := by
  unfold readLegacyBlock
  refine (readScalar_yields 2 s).bind fun d s₁ _ => ?_
  have bias : Yields (readLegacyBias type (halfToFloat d : R)) s₁ fun _ _ => True := by
    unfold readLegacyBias
    split
    · exact (readScalar_yields 2 s₁).bind fun m s₂ _ => yields_pure trivial
    · split <;> exact yields_pure trivial
  refine bias.bind fun bias s₂ _ => ?_
  split
  · exact ((readFresh_yields 32 s₂).mono fun _ _ _ => trivial).bind fun rb s₃ (_ : True) => yields_pure trivial
  · exact ((readFresh_yields 16 s₂).mono fun _ _ _ => trivial).bind fun rb s₃ (_ : True) => yields_pure trivial

/-- The shapes of a packed weight and of its scales and biases. -/
theorem extractLegacyQuant_yields (pos : Nat) {shape : List Int} (type : Nat) (nonneg : 0 ≤ numElements shape) :
    Yields (extractLegacyQuant pos shape type) s fun (qa : QuantArrays R) _ =>
      qa.weight.shape = shape.dropLast ++ [(shape.getLastD 0 * if type = kGgmlQ8_0 then 8 else 4).tdiv 32] ∧
        qa.scales.shape = shape.dropLast ++ [(shape.getLastD 0).tdiv 32] ∧
        qa.biases.shape = shape.dropLast ++ [(shape.getLastD 0).tdiv 32] := by
  unfold extractLegacyQuant
  rw [vectorSize_of_nonneg nonneg]
  refine Yields.bind (P := fun _ _ => True) ⟨_, _, rfl, trivial⟩ fun n s₁ _ => ?_
  refine Yields.bind (P := fun _ _ => True) ⟨_, _, rfl, trivial⟩ fun _ s₂ _ => ?_
  refine (times_yields (readLegacyBlock_yields type) _ s₂).bind fun blocks s₃ _ => ?_
  exact yields_pure ⟨by split <;> rfl, rfl, rfl⟩

theorem dequantizeKQuant_yields (pos : Nat) {n : Int} (type : Nat) (nonneg : 0 ≤ n) :
    Yields (dequantizeKQuant pos n type) s fun (_ : List R) _ => True := by
  unfold dequantizeKQuant
  rw [vectorSize_of_nonneg nonneg]
  refine Yields.bind (P := fun _ _ => True) ⟨_, _, rfl, trivial⟩ fun n s₁ _ => ?_
  refine Yields.bind (P := fun _ _ => True) ⟨_, _, rfl, trivial⟩ fun _ s₂ _ => ?_
  refine Yields.bind (P := fun _ _ => True) ⟨_, _, rfl, trivial⟩ fun raw s₃ _ => ?_
  exact yields_pure trivial

theorem castToInt_of_lt {d : Nat} (fits : d < 2 ^ 31) : castToInt d = d := by
  rw [castToInt, Nat.mod_eq_of_lt (by omega)]
  exact if_pos fits

/-- The shape of a tensor of the file, outermost axis first. -/
theorem GgufTensorInfo.WellFormed.shape {t : GgufTensorInfo} (well : t.WellFormed) :
    ∃ lead : List Int, t.dims.reverse.map castToInt = lead ++ [(t.dims.headD 0 : Int)] ∧ (∀ d ∈ lead, 0 < d) ∧
      0 < t.dims.headD 0 := by
  cases dims : t.dims with
  | nil => exact absurd dims well.rank.1
  | cons d ds =>
    have small := well.dims
    rw [dims] at small
    obtain ⟨first, others⟩ := List.forall_mem_cons.mp small
    refine ⟨ds.reverse.map castToInt, ?_, ?_, first.1⟩
    · rw [List.reverse_cons, List.map_append, List.map_singleton, castToInt_of_lt first.2]
      rfl
    · intro x member
      obtain ⟨y, listed, rfl⟩ := List.mem_map.mp member
      obtain ⟨positive, fits⟩ := others y (List.mem_reverse.mp listed)
      rw [castToInt_of_lt fits]
      exact_mod_cast positive

/-- Whatever the stream gives, a tensor of the directory is loaded. -/
theorem loadTensor_yields {t : GgufTensorInfo} (harmless : Harmless t) {out : Tensors R} (loadable : Loadable out)
    (dataStart : Nat) : Yields (loadTensor dataStart out t) s fun out' _ => Loadable out' := by
  unfold loadTensor
  rcases harmless with well | ⟨blank, dense, scalar⟩
  · obtain ⟨lead, shape, leading, positive⟩ := well.shape
    have last : (0 : Int) < t.dims.headD 0 := by exact_mod_cast positive
    have solid : Solid (⟨.float16, t.dims.reverse.map castToInt, []⟩ : MlxArray R) := by
      rw [shape]
      exact solid_append leading last
    have nonneg : 0 ≤ numElements (t.dims.reverse.map castToInt) := (numElements_pos solid.2).le
    have noScales : endsWith t.name (.ofAscii ".scales") → dropSuffix t.name ++ .ofAscii ".weight" ∈ out :=
      fun ends => absurd ends well.notScales
    simp only
    split
    · refine (readDenseTensor_yields _ _ nonneg).bind fun a s' same => ?_
      exact yields_pure (loadable.emplace (fun _ => solid.of_shape same) noScales)
    split
    · rename_i legacy
      refine (extractLegacyQuant_yields _ _ nonneg).bind fun qa s' ⟨weight, scales, biases⟩ => ?_
      obtain ⟨base, name⟩ := well.weight legacy
      obtain ⟨blocks, whole⟩ := well.blocks.1 legacy
      rw [shape, List.dropLast_concat, List.getLastD_concat] at weight scales biases
      have groups : (0 : Int) < (t.dims.headD 0 : Int).tdiv 32 := by
        rw [whole, Int.tdiv_eq_ediv_of_nonneg (by omega)]
        omega
      have columns : (0 : Int) < ((t.dims.headD 0 : Int) * if t.ggmlType = kGgmlQ8_0 then 8 else 4).tdiv 32 := by
        rw [whole, Int.tdiv_eq_ediv_of_nonneg (by split <;> omega)]
        split <;> omega
      have solidWeight : Solid qa.weight := Solid.of_shape (a := ⟨.uint32, _, []⟩) (solid_append leading columns) weight
      have solidScales : Solid qa.scales := Solid.of_shape (a := ⟨.uint32, _, []⟩) (solid_append leading groups) scales
      have solidBiases : Solid qa.biases := Solid.of_shape (a := ⟨.uint32, _, []⟩) (solid_append leading groups) biases
      rw [← name, dropSuffix_append rfl]
      exact yields_pure (loadable.emplace_quant solidWeight solidScales solidBiases)
    split
    · refine (dequantizeKQuant_yields _ _ nonneg).bind fun values s' _ => ?_
      exact yields_pure (loadable.emplace (fun _ => solid.of_shape rfl) noScales)
    · rename_i notDense notLegacy notK
      exact absurd well.type (by tauto)
  · have first : isDense t.ggmlType := .inl dense
    have nonneg : 0 ≤ numElements (t.dims.reverse.map castToInt) := by
      rw [scalar]
      decide
    simp only [first, if_true]
    refine (readDenseTensor_yields _ _ nonneg).bind fun a s' _ => ?_
    apply yields_pure
    apply loadable.emplace
    · rw [blank.remapGgufKey]
      exact fun canonical => absurd canonical (by decide)
    · exact fun ends => absurd ends (blank.not_endsWith (by decide) (by decide))

theorem loadTensors_yields {ts : List GgufTensorInfo} (harmless : ∀ t ∈ ts, Harmless t) {out : Tensors R}
    (loadable : Loadable out) (dataStart : Nat) (s : InputStream) :
    Yields (ts.foldlM (loadTensor dataStart) out) s fun out' _ => Loadable out' := by
  induction ts generalizing out s with
  | nil => exact yields_pure loadable
  | cons t ts ih =>
    rw [List.foldlM_cons]
    obtain ⟨first, others⟩ := List.forall_mem_cons.mp harmless
    exact (loadTensor_yields first loadable dataStart).bind fun out' s' loadable' => ih others loadable' s'

/-! ### Metadata that `config_from_gguf` accepts -/

def requiredKeys (arch : Bytes) : List Bytes :=
  [Bytes.ofAscii "block_count", .ofAscii "embedding_length", .ofAscii "attention.head_count",
    .ofAscii "attention.layer_norm_rms_epsilon"].map (arch ++ .ofAscii "." ++ ·)

/-- An accepted architecture with the numbers it cannot do without. -/
def Accepted (m : GgufMetadata R) : Prop :=
  ∃ arch ∈ acceptedArchs, m.strs (.ofAscii "general.architecture") = some arch ∧
    ∀ k ∈ requiredKeys arch, (m.nums k).isSome

theorem gmInt_of_isSome {m : GgufMetadata R} {k : Bytes} (present : (m.nums k).isSome) :
    ∃ x, m.nums k = some x ∧ gmInt m k = .ok (Floats.toInt x) := by
  obtain ⟨x, found⟩ := Option.isSome_iff_exists.mp present
  exact ⟨x, found, by rw [gmInt, found]⟩

theorem gmInt_ok {m : GgufMetadata R} {k : Bytes} {i : Int} (read : gmInt m k = .ok i) : (m.nums k).isSome := by
  unfold gmInt at read
  split at read
  · rename_i found
    rw [found]
    rfl
  · cases read

theorem gmFloat_ok {m : GgufMetadata R} {k : Bytes} {x : R} (read : gmFloat m k = .ok x) : (m.nums k).isSome := by
  unfold gmFloat at read
  split at read
  · rename_i found
    rw [found]
    rfl
  · cases read

theorem accepted_of_config {m : GgufMetadata R} {config : GgufConfig R} (ok : configFromGguf m = .ok config) : Accepted m := by
  unfold configFromGguf at ok
  simp only at ok
  split_ifs at ok with next known
  unfold gmStr at known ok
  cases arch : m.strs (.ofAscii "general.architecture") with
  | none =>
    rw [arch] at known
    exact absurd known (by decide)
  | some name =>
    rw [arch] at known ok
    refine ⟨name, known, arch, ?_⟩
    obtain ⟨_, layers, ok⟩ := bind_ok ok
    obtain ⟨_, hidden, ok⟩ := bind_ok ok
    obtain ⟨_, heads, ok⟩ := bind_ok ok
    obtain ⟨_, eps, _⟩ := bind_ok ok
    intro k member
    simp only [requiredKeys, List.map_cons, List.map_nil, List.mem_cons, List.not_mem_nil, or_false] at member
    rcases member with rfl | rfl | rfl | rfl
    · exact gmInt_ok layers
    · exact gmInt_ok hidden
    · exact gmInt_ok heads
    · exact gmFloat_ok eps

/-- The configuration of accepted metadata, with the geometry of its heads. -/
theorem Accepted.config {m : GgufMetadata R} (accepted : Accepted m) :
    ∃ config arch hidden heads, configFromGguf m = .ok config ∧ arch ∈ acceptedArchs ∧
      m.nums (arch ++ .ofAscii "." ++ .ofAscii "embedding_length") = some hidden ∧
      m.nums (arch ++ .ofAscii "." ++ .ofAscii "attention.head_count") = some heads ∧
      config.nHeads = Floats.toInt heads ∧
      config.nKvHeads = gmIntOr m (arch ++ .ofAscii "." ++ .ofAscii "attention.head_count_kv") config.nHeads ∧
      config.headDim = gmIntOr m (arch ++ .ofAscii "." ++ .ofAscii "attention.key_length")
        (gmIntOr m (arch ++ .ofAscii "." ++ .ofAscii "rope.dimension_count")
          ((Floats.toInt hidden).tdiv (max 1 config.nHeads))) := by
  obtain ⟨arch, known, found, present⟩ := accepted
  have present' : ∀ name ∈ [Bytes.ofAscii "block_count", .ofAscii "embedding_length", .ofAscii "attention.head_count",
      .ofAscii "attention.layer_norm_rms_epsilon"], (m.nums (arch ++ .ofAscii "." ++ name)).isSome :=
    fun name member => present _ (List.mem_map_of_mem member)
  obtain ⟨layers, _, readLayers⟩ := gmInt_of_isSome (present' (.ofAscii "block_count") (by simp))
  obtain ⟨hidden, foundHidden, readHidden⟩ := gmInt_of_isSome (present' (.ofAscii "embedding_length") (by simp))
  obtain ⟨heads, foundHeads, readHeads⟩ := gmInt_of_isSome (present' (.ofAscii "attention.head_count") (by simp))
  obtain ⟨eps, foundEps⟩ := Option.isSome_iff_exists.mp (present' (.ofAscii "attention.layer_norm_rms_epsilon") (by simp))
  have readEps : gmFloat m (arch ++ .ofAscii "." ++ .ofAscii "attention.layer_norm_rms_epsilon") = .ok (Floats.toFloat eps) := by
    rw [gmFloat, foundEps]
  have notNext : arch ≠ .ofAscii "qwen3next" := by
    rintro rfl
    exact absurd known (by decide)
  have ok : ∃ config, configFields m arch = .ok config ∧ config.nHeads = Floats.toInt heads ∧
      config.nKvHeads = gmIntOr m (arch ++ .ofAscii "." ++ .ofAscii "attention.head_count_kv") config.nHeads ∧
      config.headDim = gmIntOr m (arch ++ .ofAscii "." ++ .ofAscii "attention.key_length")
        (gmIntOr m (arch ++ .ofAscii "." ++ .ofAscii "rope.dimension_count")
          ((Floats.toInt hidden).tdiv (max 1 config.nHeads))) := by
    unfold configFields
    simp only [readLayers, readHidden, readHeads, readEps, ok_bind]
    exact ⟨_, rfl, rfl, rfl, rfl⟩
  obtain ⟨config, fields, geometry⟩ := ok
  refine ⟨config, arch, hidden, heads, ?_, known, foundHidden, foundHeads, geometry⟩
  unfold configFromGguf gmStr
  simp only [found, Option.getD_some, if_neg notNext, if_neg (not_not.mpr known)]
  exact fields

omit [Floats R] in
theorem Accepted.mono {m m' : GgufMetadata R} (accepted : Accepted m) (covers : Covers m m') : Accepted m' := by
  obtain ⟨arch, known, found, present⟩ := accepted
  have visible : ∀ arch ∈ acceptedArchs, ¬Blank arch ∧ ∀ k ∈ requiredKeys arch, ¬Blank k := by decide
  obtain ⟨readable, keys⟩ := visible arch known
  refine ⟨arch, known, covers.strs _ _ (by decide) readable found, fun k member => ?_⟩
  exact covers.nums k (keys k member) (present k member)

omit [Floats R] in
theorem not_accepted_empty : ¬Accepted ({} : GgufMetadata R) := by
  rintro ⟨arch, _, found, _⟩
  cases found

theorem Sized.gmIntOr {m : GgufMetadata R} (sized : Sized m) {k : Bytes} (member : k ∈ geometryKeys) {d : Int}
    (nonneg : 0 ≤ d) : 0 ≤ gmIntOr m k d := by
  unfold Mlxforge.gmIntOr
  cases found : m.nums k with
  | none => exact nonneg
  | some x =>
    obtain ⟨n, fits, rfl⟩ := sized k member x found
    rw [Option.map_some, Option.getD_some, Floats.toInt_ofInt _ (by omega) (by omega)]
    omega

theorem geometry_key {arch name : Bytes} (known : arch ∈ acceptedArchs)
    (member : .ofAscii "." ++ name ∈ [Bytes.ofAscii ".embedding_length", .ofAscii ".attention.head_count",
      .ofAscii ".attention.head_count_kv", .ofAscii ".attention.key_length", .ofAscii ".rope.dimension_count"]) :
    arch ++ .ofAscii "." ++ name ∈ geometryKeys := by
  rw [List.append_assoc]
  exact List.mem_flatMap.mpr ⟨arch, known, List.mem_map_of_mem member⟩

/-- The configuration of accepted metadata asks for no negative number of rows. -/
theorem Accepted.head {m : GgufMetadata R} (accepted : Accepted m) (sized : Sized m) :
    ∃ head, modelHeadFromMetadata m = .ok head ∧ 0 ≤ head.config.nHeads * head.config.headDim ∧
      0 ≤ head.config.nKvHeads * head.config.headDim := by
  obtain ⟨config, arch, hidden, heads, ok, known, foundHidden, foundHeads, nHeads, nKvHeads, headDim⟩ := accepted.config
  have whole : ∀ {name : Bytes} {x : R}, .ofAscii "." ++ name ∈ [Bytes.ofAscii ".embedding_length",
      .ofAscii ".attention.head_count", .ofAscii ".attention.head_count_kv", .ofAscii ".attention.key_length",
      .ofAscii ".rope.dimension_count"] → m.nums (arch ++ .ofAscii "." ++ name) = some x → 0 ≤ Floats.toInt x := by
    intro name x member found
    obtain ⟨n, fits, rfl⟩ := sized _ (geometry_key known member) x found
    rw [Floats.toInt_ofInt _ (by omega) (by omega)]
    omega
  have hiddenNonneg := whole (by decide) foundHidden
  have headsNonneg : 0 ≤ config.nHeads := by
    rw [nHeads]
    exact whole (by decide) foundHeads
  have kvNonneg : 0 ≤ config.nKvHeads := by
    rw [nKvHeads]
    exact sized.gmIntOr (geometry_key known (by decide)) headsNonneg
  have dimNonneg : 0 ≤ config.headDim := by
    rw [headDim]
    apply sized.gmIntOr (geometry_key known (by decide))
    apply sized.gmIntOr (geometry_key known (by decide))
    exact Int.tdiv_nonneg hiddenNonneg (by omega)
  unfold modelHeadFromMetadata
  rw [ok]
  exact ⟨_, rfl, Int.mul_nonneg headsNonneg dimNonneg, Int.mul_nonneg kvNonneg dimNonneg⟩

theorem modelHead_error {m : GgufMetadata R} (rejected : ¬Accepted m) : ∃ e, modelHeadFromMetadata m = .error e := by
  cases config : configFromGguf m with
  | ok config' => exact absurd (accepted_of_config config) rejected
  | error e =>
    refine ⟨e, ?_⟩
    unfold modelHeadFromMetadata
    rw [config]
    rfl

/-- The value of finite IEEE bits with `e` exponent bits and `m` mantissa bits. -/
def ieeeValue (e m : Nat) (bits : Nat) : ℚ :=
  let exponent := bits / 2 ^ m % 2 ^ e
  let mantissa := bits % 2 ^ m
  let magnitude : ℚ := if exponent = 0 then mantissa else 2 ^ m + mantissa
  let scale : Int := (max exponent 1 : Nat) - (2 ^ (e - 1) - 1) - m
  (if bits / 2 ^ (e + m) % 2 = 0 then magnitude else -magnitude) * (if 0 ≤ scale then 2 ^ scale.toNat else 1 / 2 ^ (-scale).toNat)

/-- Numbers that need no rounding. -/
instance : Floats ℚ where
  ofInt i := i
  ofFloat := ieeeValue 8 23
  ofDouble := ieeeValue 11 52
  toInt q := q.num.tdiv q.den
  toInt_ofInt i _ _ := by simp
  toFloat q := q
  toHalf q := q

/-! ### Prefixes of a file -/

theorem onFile_ok {α : Type} {p : GgufReader α} {file : Bytes} {unset : Nat → UInt8} {Q : α → InputStream → Prop}
    (run : Yields p { bytes := file, unset } Q) : ∃ a s', onFile p file unset = .ok a ∧ Q a s' := by
  obtain ⟨a, s', ran, holds⟩ := run
  refine ⟨a, s', ?_, holds⟩
  unfold onFile
  rw [ran]
  rfl

theorem onFile_cases {α : Type} {p : GgufReader α} {file : Bytes} {unset : Nat → UInt8} {Q : α → InputStream → Prop}
    (run : Allows p { bytes := file, unset } Q) :
    (∃ e, onFile p file unset = .error e) ∨ ∃ a s', onFile p file unset = .ok a ∧ Q a s' := by
  unfold onFile
  cases ran : p { bytes := file, unset } with
  | error e => exact .inl ⟨e, rfl⟩
  | ok done => exact .inr ⟨done.1, done.2, rfl, run _ _ ran⟩

namespace GgufFile

variable {f : GgufFile} {stack c : Nat}

/-- Neither loader returns anything for the first `c` bytes of the file, whatever the variables hold; the second is
asked for cuts inside the metadata only. -/
def Refused (R : Type) [Floats R] (f : GgufFile) (stack c : Nat) : Prop :=
  (∀ unset, ∃ e, loadGgufModel (R := R) stack (f.encode.take c) unset = .error e) ∧
    (c < f.metadataEnd → ∀ unset, ∃ e, loadGgufConfigAndTokenizer (R := R) stack (f.encode.take c) unset = .error e)

theorem refused_of_not_accepted (well : f.WellFormed R) (deep : f.frames < stack) (inside : c < f.encode.length)
    (rejected : ¬Accepted (metadataOf (f.seen c) : GgufMetadata R)) : Refused R f stack c := by
  have head : ∀ unset, (∃ e, onFile (parseGgufMetadata (R := R) stack) (f.encode.take c) unset = .error e) ∨
      ∃ m e, onFile (parseGgufMetadata (R := R) stack) (f.encode.take c) unset = .ok m ∧
        modelHeadFromMetadata m = .error e := by
    intro unset
    have run : Allows (parseGgufMetadata (R := R) stack) (f.opened c unset) _ := parseGgufMetadata_allows well deep inside
    rcases onFile_cases run with failed | ⟨m, _, read, covers⟩
    · exact .inl failed
    · obtain ⟨e, failed⟩ := modelHead_error fun accepted => rejected (Accepted.mono accepted covers)
      exact .inr ⟨m, e, read, failed⟩
  constructor
  · intro unset
    unfold loadGgufModel
    rcases head (unset 0) with ⟨e, failed⟩ | ⟨m, e, read, failed⟩
    · exact ⟨e, by rw [failed]; rfl⟩
    · exact ⟨e, by rw [read, ok_bind, failed]; rfl⟩
  · intro _ unset
    unfold loadGgufConfigAndTokenizer
    rcases head unset with ⟨e, failed⟩ | ⟨m, e, read, failed⟩
    · exact ⟨e, by rw [failed]; rfl⟩
    · exact ⟨e, by rw [read, ok_bind, failed]⟩

theorem loads_of_accepted (well : f.WellFormed R) (deep : f.frames < stack) (inside : c < f.encode.length)
    (accepted : Accepted (metadataOf (f.seen c) : GgufMetadata R)) :
    ∃ unset g, loadGgufModel (R := R) stack (f.encode.take c) unset = .ok g := by
  have whole : 24 ≤ c := by
    by_contra short
    have none : f.seen c = [] := by
      rw [seen, Nat.sub_eq_zero_of_le (by omega), entriesBefore_zero]
    rw [none] at accepted
    exact not_accepted_empty accepted
  have metadata : Settles True (parseGgufMetadata (R := R) stack) (f.opened c fun _ => 0) _ :=
    parseGgufMetadata_settles well deep whole inside fun _ _ => rfl
  obtain ⟨m, _, read, _, facts⟩ := onFile_ok (metadata.yields trivial)
  obtain ⟨covers, sized⟩ := facts trivial
  obtain ⟨head, headOk, q, k⟩ := (Accepted.mono accepted covers).head sized
  let alignment := (gmIntOr m (.ofAscii "general.alignment") 32 % 2 ^ 64).toNat
  obtain ⟨unset, directory⟩ := parseGgufDirectory_yields well deep whole (max 1 alignment)
  obtain ⟨dir, _, readDir, harmless⟩ := onFile_ok directory
  obtain ⟨tensors, _, readData, loadable⟩ := onFile_ok
    (loadTensors_yields harmless (loadable_empty (R := R)) dir.dataStart { bytes := f.encode.take c, unset := fun _ => 0 })
  obtain ⟨g, built⟩ := buildModel_ok loadable q k
  refine ⟨fun i => if i = 1 then unset else fun _ => 0, g, ?_⟩
  have loaded : loadGgufTensors stack alignment (f.encode.take c)
      (fun i => if i + 1 = 1 then unset else fun _ => 0) = .ok tensors := by
    unfold loadGgufTensors
    change onFile (parseGgufDirectory stack (max 1 alignment)) (f.encode.take c) unset >>= _ = _
    rw [readDir]
    exact readData
  unfold loadGgufModel
  change onFile (parseGgufMetadata stack) (f.encode.take c) (fun _ => 0) >>= _ = _
  rw [read, ok_bind, headOk, ok_bind]
  change loadGgufTensors stack alignment (f.encode.take c) _ >>= _ = _
  rw [loaded]
  exact built

/-- Behind the metadata a cut hides nothing. -/
theorem seen_of_metadata_read (read : f.metadataEnd ≤ c) : f.seen c = f.entries := by
  have all : ∀ (es : List GgufEntry) (n : Nat), (es.flatMap (·.encode)).length ≤ n → entriesBefore n es = es := by
    intro es
    induction es with
    | nil => exact fun _ _ => rfl
    | cons e es ih =>
      intro n enough
      rw [List.flatMap_cons, List.length_append] at enough
      rw [entriesBefore, if_pos (by omega), ih _ (by omega)]
  unfold metadataEnd at read
  exact all f.entries (c - 24) (by unfold metadataBytes at read; omega)

/-- A prefix is refused exactly when `config_from_gguf` rejects the entries that lie before the cut. -/
theorem refused_iff (well : f.WellFormed R) (deep : f.frames < stack) (inside : c < f.encode.length) :
    Refused R f stack c ↔ ∃ e, configFromGguf (metadataOf (f.seen c) : GgufMetadata R) = .error e := by
  constructor
  · intro refused
    cases config : configFromGguf (metadataOf (f.seen c) : GgufMetadata R) with
    | error e => exact ⟨e, rfl⟩
    | ok config' =>
      obtain ⟨unset, g, loaded⟩ := loads_of_accepted well deep inside (accepted_of_config config)
      obtain ⟨e, failed⟩ := refused.1 unset
      rw [loaded] at failed
      cases failed
  · rintro ⟨e, rejected⟩
    apply refused_of_not_accepted well deep inside
    intro accepted
    obtain ⟨config, _, _, _, ok, _⟩ := accepted.config
    rw [ok] at rejected
    cases rejected

/-- A model with one weight, 1.0, in the last four bytes. -/
def tiny : GgufFile where
  version := 3
  entries := [⟨.ofAscii "general.architecture", .str (.ofAscii "llama")⟩,
    ⟨.ofAscii "llama.block_count", .scalar 4 1⟩, ⟨.ofAscii "llama.embedding_length", .scalar 4 1⟩,
    ⟨.ofAscii "llama.attention.head_count", .scalar 4 1⟩, ⟨.ofAscii "llama.attention.layer_norm_rms_epsilon", .scalar 6 0⟩]
  tensors := [⟨.ofAscii "token_embd.weight", kGgmlF32, [1], 0⟩]
  data := [0, 0, 0] ++ [0, 0, 0x80, 0x3F]

theorem tiny_wellFormed : WellFormed ℚ tiny where
  version := by decide
  entries := by
    refine ⟨by decide, fun e member => ?_⟩
    simp only [tiny, List.mem_cons, List.not_mem_nil, or_false] at member
    rcases member with rfl | rfl | rfl | rfl | rfl
    · exact ⟨by decide, (by decide : 5 < 2 ^ 63)⟩
    all_goals exact ⟨by decide, by decide, by decide⟩
  geometry := by
    intro e member
    simp only [tiny, List.mem_cons, List.not_mem_nil, or_false] at member
    rcases member with rfl | rfl | rfl | rfl | rfl <;> rintro known t raw same
    · cases same
    · obtain ⟨rfl, rfl⟩ := GgufValue.scalar.inj same
      decide
    · obtain ⟨rfl, rfl⟩ := GgufValue.scalar.inj same
      decide
    · obtain ⟨rfl, rfl⟩ := GgufValue.scalar.inj same
      decide
    · exact absurd known (by decide)
  tensors := by
    refine ⟨by decide, fun t member => ?_⟩
    rw [List.mem_singleton.mp member]
    exact ⟨by decide, by decide, by decide, by decide, by decide, by decide, by decide, by decide, by decide⟩
  data := by decide +kernel
  size := by decide +kernel

theorem tiny_inside : 291 < tiny.encode.length := by decide +kernel

theorem refused_iff_tiny : Refused ℚ tiny 3 291 ↔
    ∃ e, configFromGguf (metadataOf (tiny.seen 291) : GgufMetadata ℚ) = .error e :=
  refused_iff tiny_wellFormed (by decide) tiny_inside

theorem tiny_accepted : Accepted (metadataOf (tiny.seen 291) : GgufMetadata ℚ) := by
  rw [seen_of_metadata_read (by decide +kernel)]
  exact ⟨.ofAscii "llama", by decide, by decide, by decide⟩

/-- Without its last byte the file loads: what is left of the weight is another number. -/
theorem cut_weight_loads : tiny.encode.length = 292 ∧ tiny.directoryEnd = 285 ∧
    ∃ unset g, loadGgufModel (R := ℚ) 3 (tiny.encode.take 291) unset = .ok g :=
  ⟨by decide +kernel, by decide +kernel, loads_of_accepted tiny_wellFormed (by decide) tiny_inside tiny_accepted⟩

end GgufFile

end Mlxforge
