import Mlxforge.Core.Gguf

/-!
Well-formed GGUF files, and that both metadata walkers and the directory reader consume exactly the records that lie
in them.
-/

namespace Mlxforge

open StreamReader

/-- A metadata value: a scalar of a numeric type by its raw bits, a string, or an array with its element type. -/
inductive GgufValue where
  | scalar (type raw : Nat)
  | str (s : Bytes)
  | array (et : Nat) (elems : List GgufValue)

/-- The bytes of a scalar type, 0 for strings and arrays. -/
def scalarBytes (type : Nat) : Nat := (scalarWidths.getD type 0).toNat

def ggufString (s : Bytes) : Bytes := littleEndian 8 s.length ++ s

namespace GgufValue

def type : GgufValue → Nat
  | scalar t _ => t
  | str _ => 8
  | array _ _ => 9

mutual

def payload : GgufValue → Bytes
  | scalar t raw => littleEndian (scalarBytes t) raw
  | str s => ggufString s
  | array et elems => littleEndian 4 et ++ (littleEndian 8 elems.length ++ payloads elems)

def payloads : List GgufValue → Bytes
  | [] => []
  | v :: vs => v.payload ++ payloads vs

end

mutual

/-- The call-stack frames that skipping a value takes. -/
def frames : GgufValue → Nat
  | scalar _ _ => 1
  | str _ => 1
  | array _ elems => framesOf elems + 1

def framesOf : List GgufValue → Nat
  | [] => 1
  | v :: vs => max v.frames (framesOf vs)

end

mutual

def WellFormed : GgufValue → Prop
  | scalar t raw => isNumericType t ∧ raw < 256 ^ scalarBytes t
  | str s => s.length < 2 ^ 63
  | array et elems => et ≤ 12 ∧ elems.length < 2 ^ 63 ∧ AllOf et elems

def AllOf (et : Nat) : List GgufValue → Prop
  | [] => True
  | v :: vs => v.type = et ∧ v.WellFormed ∧ AllOf et vs

end

theorem payloads_eq (vs : List GgufValue) : payloads vs = vs.flatMap payload := by
  induction vs with
  | nil => rfl
  | cons v vs ih => rw [payloads, ih, List.flatMap_cons]

theorem AllOf.mem {et : Nat} {vs : List GgufValue} (all : AllOf et vs) {v : GgufValue} (member : v ∈ vs) :
    v.type = et ∧ v.WellFormed := by
  induction vs with
  | nil => cases member
  | cons w vs ih =>
    obtain ⟨type, well, rest⟩ := all
    rcases List.mem_cons.mp member with rfl | member
    · exact ⟨type, well⟩
    · exact ih rest member

theorem frames_le_framesOf {vs : List GgufValue} {v : GgufValue} (member : v ∈ vs) : v.frames ≤ framesOf vs := by
  induction vs with
  | nil => cases member
  | cons w vs ih =>
    rw [framesOf]
    rcases List.mem_cons.mp member with rfl | member
    · exact le_max_left _ _
    · exact (ih member).trans (le_max_right _ _)

theorem one_le_framesOf (vs : List GgufValue) : 1 ≤ framesOf vs := by
  induction vs with
  | nil => exact le_rfl
  | cons v vs ih => exact ih.trans (le_max_right _ _)

end GgufValue

/-! ### Records are read whole -/

theorem reads_scalar {n v : Nat} (fits : v < 256 ^ n) : Reads (readScalar n) (littleEndian n v) v := by
  have read : Reads (readScalar n) (littleEndian n v) (fromLittleEndian (littleEndian n v)) := by
    have fresh := reads_fresh (ε := GgufError) (littleEndian n v)
    rw [littleEndian_length] at fresh
    exact fresh.bind_pure
  rwa [fromLittleEndian_littleEndian, Nat.mod_eq_of_lt fits] at read

theorem reads_string {s : Bytes} (fits : s.length < 2 ^ 63) : Reads readGgufString (ggufString s) s := by
  unfold readGgufString ggufString
  apply Reads.bind (reads_scalar (by omega))
  by_cases empty : s.length = 0
  · rw [if_pos empty, List.length_eq_zero_iff.mp empty]
    exact reads_pure []
  · rw [if_neg empty]
    exact reads_into List.length_replicate

theorem signed_of_lt {v : Nat} (fits : v < 2 ^ 63) : signed 8 v = v := if_pos fits

theorem isNumericType_iff {t : Nat} : isNumericType t ↔ t ≤ 12 ∧ t ≠ 8 ∧ t ≠ 9 := by
  unfold isNumericType
  omega

/-- The width of a numeric type, as the walkers' table has it. -/
theorem scalarWidths_numeric {t : Nat} (numeric : isNumericType t) :
    scalarWidths[t]? = some (scalarBytes t : Int) ∧ 0 < scalarBytes t := by
  obtain ⟨small, notString, notArray⟩ := isNumericType_iff.mp numeric
  interval_cases t <;> first | decide | contradiction

theorem scalarWidths_variable {t : Nat} (small : t ≤ 12) (variable_ : ¬isNumericType t) :
    scalarWidths[t]? = some (-1) := by
  have either : t = 8 ∨ t = 9 := by
    have := mt isNumericType_iff.mpr variable_
    omega
  rcases either with rfl | rfl <;> rfl

/-- Skipping a scalar is a seek over its bytes. -/
theorem skipMetadataValue_scalar {stack t : Nat} (numeric : isNumericType t) :
    skipMetadataValue (stack + 1) t = seekBy (scalarBytes t : Nat) := by
  obtain ⟨small, notString, notArray⟩ := isNumericType_iff.mp numeric
  interval_cases t <;> first | rfl | contradiction

theorem skipArrayElements_scalar {skipValue : Nat → GgufReader Unit} {et cnt : Nat} (numeric : isNumericType et)
    (fits : cnt < 2 ^ 63) : skipArrayElements skipValue et cnt = seekBy (cnt * scalarBytes et : Nat) := by
  obtain ⟨width, positive⟩ := scalarWidths_numeric numeric
  rw [skipArrayElements, width]
  have positive' : (0 : Int) < scalarBytes et := by exact_mod_cast positive
  simp only [positive', if_true, signed_of_lt fits]
  norm_cast

theorem skipArrayElements_variable {skipValue : Nat → GgufReader Unit} {et cnt : Nat} (small : et ≤ 12)
    (variable_ : ¬isNumericType et) : skipArrayElements skipValue et cnt = (do
      let _ ← times (skipValue et) cnt
      return ()) := by
  rw [skipArrayElements, scalarWidths_variable small variable_]
  rfl

namespace GgufValue

/-- The payload of scalars has the width that the walkers jump over. -/
theorem payloads_length {et : Nat} {vs : List GgufValue} (all : AllOf et vs) (numeric : isNumericType et) :
    (payloads vs).length = vs.length * scalarBytes et := by
  induction vs with
  | nil => rw [payloads, List.length_nil, List.length_nil, Nat.zero_mul]
  | cons v vs ih =>
    obtain ⟨type, well, rest⟩ := all
    have size : v.payload.length = scalarBytes et := by
      cases v with
      | scalar t raw =>
        obtain rfl : t = et := type
        rw [payload, littleEndian_length]
      | str s =>
        obtain rfl : 8 = et := type
        exact absurd numeric (by decide)
      | array et' elems =>
        obtain rfl : 9 = et := type
        exact absurd numeric (by decide)
    rw [payloads, List.length_append, size, ih rest, List.length_cons, Nat.succ_mul, Nat.add_comm]

theorem reads_skipArrayElements {stack et : Nat} {vs : List GgufValue} (small : et ≤ 12) (fits : vs.length < 2 ^ 63)
    (all : AllOf et vs) (each : ∀ v ∈ vs, Reads (skipMetadataValue stack v.type) v.payload ()) :
    Reads (skipArrayElements (skipMetadataValue stack) et vs.length) (payloads vs) () := by
  by_cases numeric : isNumericType et
  · rw [skipArrayElements_scalar numeric fits, ← payloads_length all numeric]
    exact reads_seekBy (payloads vs)
  · rw [skipArrayElements_variable small numeric, payloads_eq]
    have loop : Reads (times (skipMetadataValue stack et) vs.length) (vs.flatMap payload) (vs.map fun _ => ()) := by
      apply reads_times
      intro v member
      have read := each v member
      rwa [(all.mem member).1] at read
    exact loop.bind_pure

mutual

theorem reads_skip : {stack : Nat} → (v : GgufValue) → v.WellFormed → v.frames ≤ stack →
    Reads (skipMetadataValue stack v.type) v.payload ()
  | 0, v, _, deep => by
    have positive : 1 ≤ v.frames := by
      cases v <;> simp [frames]
    omega
  | stack + 1, scalar t raw, well, _ => by
    have read := reads_seekBy (ε := GgufError) (littleEndian (scalarBytes t) raw)
    rw [littleEndian_length] at read
    rw [type, payload, skipMetadataValue_scalar well.1]
    exact read
  | stack + 1, str s, well, _ => by
    have fits : s.length < 2 ^ 63 := well
    change Reads (do
      let n ← readScalar 8
      seekBy (signed 8 n)) (ggufString s) ()
    apply Reads.bind (reads_scalar (by omega))
    rw [signed_of_lt fits]
    exact reads_seekBy s
  | stack + 1, array et elems, well, deep => by
    obtain ⟨small, fits, all⟩ := well
    have deep' : framesOf elems ≤ stack := by
      rw [frames] at deep
      omega
    rw [payload]
    change Reads (do
      let et ← readScalar 4
      let cnt ← readScalar 8
      skipArrayElements (skipMetadataValue stack) et cnt) _ ()
    apply Reads.bind (reads_scalar (by omega))
    apply Reads.bind (reads_scalar (by omega))
    exact reads_skipArrayElements small fits all (reads_skips elems all deep')

theorem reads_skips : {stack et : Nat} → (vs : List GgufValue) → AllOf et vs → framesOf vs ≤ stack →
    ∀ v ∈ vs, Reads (skipMetadataValue stack v.type) v.payload ()
  | _, _, [], _, _ => nofun
  | stack, et, v :: vs, all, deep => by
    obtain ⟨_, well, rest⟩ := all
    rw [framesOf, max_le_iff] at deep
    intro w member
    rcases List.mem_cons.mp member with same | member
    · rw [same]
      exact reads_skip v well deep.1
    · exact reads_skips vs rest deep.2 w member

end

end GgufValue

structure GgufEntry where
  key : Bytes
  value : GgufValue

def GgufEntry.encode (e : GgufEntry) : Bytes := ggufString e.key ++ (littleEndian 4 e.value.type ++ e.value.payload)

structure GgufEntry.WellFormed (e : GgufEntry) : Prop where
  key : e.key.length < 2 ^ 63
  value : e.value.WellFormed

variable {R : Type} [Floats R]

/-- The number that the bits of a scalar stand for. -/
def numericOf (type raw : Nat) : R :=
  if type = 6 then Floats.ofFloat raw
  else if type = 12 then Floats.ofDouble raw
  else if type = 1 ∨ type = 3 ∨ type = 5 ∨ type = 11 then Floats.ofInt (signed (scalarBytes type) raw)
  else Floats.ofInt raw

def GgufValue.text : GgufValue → Bytes
  | str s => s
  | _ => []

def GgufValue.number : GgufValue → R
  | scalar t raw => numericOf t raw
  | _ => Floats.ofInt 0

/-- What an entry adds to the metadata read so far. -/
def GgufMetadata.add (m : GgufMetadata R) (e : GgufEntry) : GgufMetadata R :=
  match e.value with
  | .scalar t raw => { m with nums := Function.update m.nums e.key (some (numericOf t raw)) }
  | .str s => { m with strs := Function.update m.strs e.key (some s) }
  | .array et elems =>
    if e.key = .ofAscii "tokenizer.ggml.tokens" ∧ et = 8 then { m with tokens := elems.map (·.text) }
    else if e.key = .ofAscii "tokenizer.ggml.merges" ∧ et = 8 then { m with merges := elems.map (·.text) }
    else if e.key = .ofAscii "tokenizer.ggml.token_type" ∧ isNumericType et then
      { m with tokenTypes := elems.map fun v => Floats.toInt (v.number : R) }
    else m

theorem reads_numeric {t raw : Nat} (numeric : isNumericType t) (fits : raw < 256 ^ scalarBytes t) :
    Reads (readNumeric t) (littleEndian (scalarBytes t) raw) (numericOf t raw : R) := by
  obtain ⟨small, notString, notArray⟩ := isNumericType_iff.mp numeric
  interval_cases t <;> first | contradiction | exact (reads_scalar fits).bind_pure

theorem type_lt (v : GgufValue) (well : v.WellFormed) : v.type ≤ 12 := by
  cases v with
  | scalar t raw => exact (isNumericType_iff.mp well.1).1
  | str s => exact (by decide : 8 ≤ 12)
  | array et elems => exact (by decide : 9 ≤ 12)

theorem reads_type (v : GgufValue) (well : v.WellFormed) : Reads (readScalar 4) (littleEndian 4 v.type) v.type :=
  reads_scalar (by have := type_lt v well; omega)

/-- Elements of one type, read by a reader of that type. -/
theorem reads_elements {α : Type} {p : GgufReader α} {value : GgufValue → α} {vs : List GgufValue}
    (each : ∀ v ∈ vs, Reads p v.payload (value v)) :
    Reads (times p vs.length) (GgufValue.payloads vs) (vs.map value) := by
  rw [GgufValue.payloads_eq]
  exact reads_times each

theorem reads_texts {vs : List GgufValue} (all : GgufValue.AllOf 8 vs) :
    Reads (times readGgufString vs.length) (GgufValue.payloads vs) (vs.map (·.text)) := by
  apply reads_elements
  intro v member
  obtain ⟨type, well⟩ := all.mem member
  cases v with
  | scalar t raw =>
    obtain rfl : t = 8 := type
    exact absurd well.1 (by decide)
  | str s => exact reads_string well
  | array et elems => exact absurd (show 9 = 8 from type) (by decide)

theorem reads_numbers {et : Nat} (numeric : isNumericType et) {vs : List GgufValue} (all : GgufValue.AllOf et vs) :
    Reads (times (readNumeric et) vs.length) (GgufValue.payloads vs) (vs.map fun v => (v.number : R)) := by
  apply reads_elements
  intro v member
  obtain ⟨type, well⟩ := all.mem member
  cases v with
  | scalar t raw =>
    obtain rfl : t = et := type
    exact reads_numeric well.1 well.2
  | str s =>
    obtain rfl : 8 = et := type
    exact absurd numeric (by decide)
  | array et' elems =>
    obtain rfl : 9 = et := type
    exact absurd numeric (by decide)

theorem reads_parseArray {stack et : Nat} {elems : List GgufValue} (m : GgufMetadata R) (key : Bytes)
    (well : (GgufValue.array et elems).WellFormed) (deep : (GgufValue.array et elems).frames ≤ stack) :
    Reads (parseArray stack m key) (GgufValue.array et elems).payload (m.add ⟨key, .array et elems⟩) := by
  obtain ⟨small, fits, all⟩ := well
  have deep' : GgufValue.framesOf elems ≤ stack := by
    rw [GgufValue.frames] at deep
    omega
  rw [GgufValue.payload]
  apply Reads.bind (reads_scalar (by omega))
  apply Reads.bind (reads_scalar (by omega))
  unfold GgufMetadata.add
  simp only
  split
  · rename_i tokens
    obtain ⟨-, rfl⟩ := tokens
    exact (reads_texts all).bind_pure
  · split
    · rename_i merges
      obtain ⟨-, rfl⟩ := merges
      exact (reads_texts all).bind_pure
    · split
      · rename_i types
        have read := (reads_numbers (R := R) types.2 all).bind_pure
          (f := fun types => { m with tokenTypes := types.map Floats.toInt })
        simpa only [List.map_map, Function.comp_def] using read
      · exact (GgufValue.reads_skipArrayElements small fits all (GgufValue.reads_skips elems all deep')).bind_pure

/-- The interpreting walker consumes exactly an entry. -/
theorem reads_parseEntry {stack : Nat} (m : GgufMetadata R) {e : GgufEntry} (well : e.WellFormed)
    (deep : e.value.frames ≤ stack) : Reads (parseEntry stack m) e.encode (m.add e) := by
  obtain ⟨key, value⟩ := e
  unfold parseEntry
  apply Reads.bind (reads_string well.key)
  apply Reads.bind (reads_type value well.value)
  cases value with
  | scalar t raw =>
    have numeric : isNumericType (GgufValue.scalar t raw).type := well.value.1
    have notString : (GgufValue.scalar t raw).type ≠ 8 := (isNumericType_iff.mp numeric).2.1
    have read := (reads_numeric (R := R) numeric well.value.2).bind_pure
      (f := fun v => { m with nums := Function.update m.nums key (some v) })
    rw [parseValue, if_neg notString, if_pos numeric]
    exact read
  | str s => exact (reads_string well.value).bind_pure
  | array et elems => exact reads_parseArray m key well.value deep

/-- The skipping walker consumes exactly an entry. -/
theorem reads_skipEntry {stack : Nat} {e : GgufEntry} (well : e.WellFormed) (deep : e.value.frames ≤ stack) :
    Reads (skipEntry stack) e.encode () := by
  unfold skipEntry
  apply Reads.bind (reads_string well.key)
  apply Reads.bind (reads_type e.value well.value)
  exact GgufValue.reads_skip e.value well.value deep

def GgufTensorInfo.encode (t : GgufTensorInfo) : Bytes :=
  ggufString t.name ++ (littleEndian 4 t.dims.length ++ ((t.dims.flatMap fun d : Nat => littleEndian 8 d) ++
    (littleEndian 4 t.ggmlType ++ littleEndian 8 t.offset)))

/-- A tensor of a type the loader supports, whole blocks of it. Scales and biases are no tensors of their own: the
loader makes them from a weight. -/
structure GgufTensorInfo.WellFormed (t : GgufTensorInfo) : Prop where
  name : t.name.length < 2 ^ 63
  rank : t.dims ≠ [] ∧ t.dims.length < 2 ^ 32
  dims : ∀ d ∈ t.dims, 0 < d ∧ d < 2 ^ 31
  size : t.dims.prod < 2 ^ 63
  offset : t.offset < 2 ^ 63
  type : isDense t.ggmlType ∨ isLegacyQuant t.ggmlType ∨ isKQuant t.ggmlType
  blocks : (isLegacyQuant t.ggmlType → 32 ∣ t.dims.headD 0) ∧ (isKQuant t.ggmlType → 256 ∣ t.dims.headD 0)
  weight : isLegacyQuant t.ggmlType → endsWith t.name (.ofAscii ".weight")
  notScales : ¬endsWith t.name (.ofAscii ".scales")

/-- The bytes of a tensor's data. -/
def GgufTensorInfo.dataBytes (t : GgufTensorInfo) : Nat :=
  let n := t.dims.prod
  if t.ggmlType = kGgmlF32 then 4 * n
  else if t.ggmlType = kGgmlF16 then 2 * n
  else if t.ggmlType = kGgmlQ4_0 then 18 * (n / 32)
  else if t.ggmlType = kGgmlQ4_1 then 20 * (n / 32)
  else if t.ggmlType = kGgmlQ8_0 then 34 * (n / 32)
  else superBlockBytes t.ggmlType * (n / 256)

theorem GgufTensorInfo.WellFormed.type_lt {t : GgufTensorInfo} (well : t.WellFormed) : t.ggmlType < 256 ^ 4 := by
  rcases well.type with h | h | h
  · rcases h with h | h <;> rw [h] <;> decide
  · rcases h with h | h | h <;> rw [h] <;> decide
  · rcases h with h | h | h <;> rw [h] <;> decide

theorem reads_tensorInfo {t : GgufTensorInfo} (well : t.WellFormed) : Reads readTensorInfo t.encode t := by
  have type := well.type_lt
  have offset := well.offset
  have rank := well.rank.2
  have dims : Reads (times (readScalar 8) t.dims.length) (t.dims.flatMap fun d : Nat => littleEndian 8 d) (t.dims.map fun d => d) := by
    apply reads_times
    intro d member
    have := (well.dims d member).2
    exact reads_scalar (by omega)
  rw [List.map_id'] at dims
  unfold readTensorInfo GgufTensorInfo.encode
  apply Reads.bind (reads_string well.name)
  apply Reads.bind (reads_scalar (by omega))
  apply Reads.bind dims
  apply Reads.bind (reads_scalar type)
  exact (reads_scalar (by omega)).bind_pure

/-- The keys of the sizes that the order of the attention heads' rows depends on. -/
def geometryKeys : List Bytes := acceptedArchs.flatMap fun arch =>
  [Bytes.ofAscii ".embedding_length", .ofAscii ".attention.head_count", .ofAscii ".attention.head_count_kv",
    .ofAscii ".attention.key_length", .ofAscii ".rope.dimension_count"].map (arch ++ ·)

/-- A size is an unsigned integer that an `int` can hold. -/
def GgufEntry.Unsigned (e : GgufEntry) : Prop :=
  e.key ∈ geometryKeys → ∀ t raw, e.value = .scalar t raw → (t = 0 ∨ t = 2 ∨ t = 4 ∨ t = 10) ∧ raw < 2 ^ 31

structure GgufFile where
  version : Nat
  entries : List GgufEntry
  tensors : List GgufTensorInfo
  /-- Everything after the tensor directory: padding and tensor data. -/
  data : Bytes

namespace GgufFile

/-- Magic, version and the two counts. -/
def header (f : GgufFile) : Bytes :=
  littleEndian 4 kGgufMagic ++ (littleEndian 4 f.version ++ (littleEndian 8 f.tensors.length ++
    littleEndian 8 f.entries.length))

def metadataBytes (f : GgufFile) : Bytes := f.entries.flatMap (·.encode)

def directoryBytes (f : GgufFile) : Bytes := f.tensors.flatMap (·.encode)

def encode (f : GgufFile) : Bytes := f.header ++ (f.metadataBytes ++ (f.directoryBytes ++ f.data))

/-- Where the metadata ends. -/
def metadataEnd (f : GgufFile) : Nat := 24 + f.metadataBytes.length

def directoryEnd (f : GgufFile) : Nat := f.metadataEnd + f.directoryBytes.length

def metadataOf (entries : List GgufEntry) : GgufMetadata R := entries.foldl GgufMetadata.add {}

/-- `general.alignment`, 32 by default. -/
def alignment (R : Type) [Floats R] (f : GgufFile) : Nat :=
  (gmIntOr (metadataOf f.entries : GgufMetadata R) (.ofAscii "general.alignment") 32 % 2 ^ 64).toNat

def dataStart (R : Type) [Floats R] (f : GgufFile) : Nat := alignUp f.directoryEnd (max 1 (f.alignment R))

structure WellFormed (R : Type) [Floats R] (f : GgufFile) : Prop where
  version : f.version < 2 ^ 32
  entries : f.entries.length < 2 ^ 63 ∧ ∀ e ∈ f.entries, e.WellFormed
  geometry : ∀ e ∈ f.entries, e.Unsigned
  tensors : f.tensors.length < 2 ^ 63 ∧ ∀ t ∈ f.tensors, t.WellFormed
  data : ∀ t ∈ f.tensors, f.dataStart R + t.offset + t.dataBytes ≤ f.encode.length
  size : f.encode.length < 2 ^ 63

/-- The call-stack frames that walking the metadata takes. -/
def frames (f : GgufFile) : Nat := GgufValue.framesOf (f.entries.map (·.value))

theorem frames_entry {f : GgufFile} {e : GgufEntry} (member : e ∈ f.entries) : e.value.frames ≤ f.frames :=
  GgufValue.frames_le_framesOf (List.mem_map_of_mem member)

theorem header_length (f : GgufFile) : f.header.length = 24 := by
  simp [header]

end GgufFile

end Mlxforge
