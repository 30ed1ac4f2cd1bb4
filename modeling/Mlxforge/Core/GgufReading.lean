import Mlxforge.Core.GgufTruncation

/-!
A well-formed file is read back: its metadata, its directory, and the data of its `F32` tensors.
-/

namespace Mlxforge

open StreamReader

variable {R : Type} [Floats R] {stack : Nat}

theorem onFile_of_reads {α : Type} {p : GgufReader α} {file bytes : Bytes} {a : α} (read : Reads p bytes a)
    (found : bytes <+: file) (unset : Nat → UInt8) : onFile p file unset = .ok a := by
  unfold onFile
  rw [read { bytes := file, unset } rfl found]
  rfl

theorem reads_parseEntries {es : List GgufEntry} (m : GgufMetadata R)
    (each : ∀ e ∈ es, e.WellFormed ∧ e.value.frames ≤ stack) :
    Reads (parseEntries stack es.length m) (es.flatMap (·.encode)) (es.foldl .add m) := by
  induction es generalizing m with
  | nil => exact reads_pure m
  | cons e es ih =>
    obtain ⟨well, deep⟩ := each e List.mem_cons_self
    apply (reads_parseEntry m well deep).bind
    exact ih _ fun e' member => each e' (List.mem_cons_of_mem e member)

namespace GgufFile

variable {f : GgufFile}

/-- A header that is there whole, and what follows it. -/
theorem run_header {α : Type} {k : Nat → Nat → GgufReader α} {s : InputStream} {tail : Bytes} (version : f.version < 2 ^ 32)
    (tensors : f.tensors.length < 2 ^ 64) (entries : f.entries.length < 2 ^ 64) (good : s.failed = false)
    (found : f.header ++ tail <+: s.rest) :
    (do
      let magic ← readScalar 4
      if magic ≠ kGgufMagic then throw .badMagic
      else
        let _version ← readScalar 4
        let nTensors ← readScalar 8
        let n ← readScalar 8
        k nTensors n : GgufReader α) s = k f.tensors.length f.entries.length (s.skip 24) ∧
      (s.skip 24).failed = false ∧ tail <+: (s.skip 24).rest := by
  simp only [header, List.append_assoc] at found
  obtain ⟨ran₁, good, found⟩ := (reads_scalar (n := 4) (v := kGgufMagic) (by decide)).run_bind good found
  rw [ran₁, if_neg (not_not.mpr rfl)]
  obtain ⟨ran₂, good, found⟩ := (reads_scalar (n := 4) (v := f.version) (by omega)).run_bind good found
  rw [ran₂]
  obtain ⟨ran₃, good, found⟩ := (reads_scalar (n := 8) (v := f.tensors.length) (by omega)).run_bind good found
  rw [ran₃]
  obtain ⟨ran₄, good, found⟩ := (reads_scalar (n := 8) (v := f.entries.length) (by omega)).run_bind good found
  rw [ran₄]
  simp only [InputStream.skip_skip, littleEndian_length] at good found ⊢
  exact ⟨trivial, good, found⟩

/-- What `parse_gguf_directory` reads behind the metadata. -/
def readDirectory (alignment nTensors : Nat) : GgufReader GgufDirectory := do
  let tensors ← times readTensorInfo nTensors
  let pos ← tell
  return { tensors, dataStart := alignUp (pos % 2 ^ 64).toNat alignment }

/-- The stream where the metadata ends. -/
def behindMetadata (f : GgufFile) (unset : Nat → UInt8) : InputStream :=
  { bytes := f.encode, pos := f.metadataEnd, unset }

theorem skip_metadata (f : GgufFile) (unset : Nat → UInt8) :
    (InputStream.skip { bytes := f.encode, unset } 24).skip f.metadataBytes.length = f.behindMetadata unset := by
  rw [InputStream.skip_skip, InputStream.skip, Nat.zero_add]
  rfl

section
variable (version : f.version < 2 ^ 32) (tensors : f.tensors.length < 2 ^ 64) (entries : f.entries.length < 2 ^ 64)
  (well : ∀ e ∈ f.entries, e.WellFormed) (deep : f.frames ≤ stack) (unset : Nat → UInt8)

theorem whole_found (f : GgufFile) (unset : Nat → UInt8) :
    f.header ++ (f.metadataBytes ++ (f.directoryBytes ++ f.data)) <+: InputStream.rest { bytes := f.encode, unset } :=
  List.prefix_rfl

include version tensors entries well deep

/-- The interpreting walker stops where the metadata ends. -/
theorem parseGgufMetadata_run : parseGgufMetadata stack { bytes := f.encode, unset } =
    .ok ((metadataOf f.entries : GgufMetadata R), f.behindMetadata unset) := by
  have each : ∀ e ∈ f.entries, e.WellFormed ∧ e.value.frames ≤ stack :=
    fun e member => ⟨well e member, (frames_entry member).trans deep⟩
  obtain ⟨ran, good, found⟩ := run_header (k := fun _ n => parseEntries stack n ({} : GgufMetadata R)) version tensors
    entries rfl (f.whole_found unset)
  have read := reads_parseEntries ({} : GgufMetadata R) each _ good ((List.prefix_append _ _).trans found)
  rw [← skip_metadata]
  exact ran.trans read

/-- So does the skipping one. -/
theorem parseGgufDirectory_run (alignment : Nat) : parseGgufDirectory stack alignment { bytes := f.encode, unset } =
    readDirectory alignment f.tensors.length (f.behindMetadata unset) := by
  obtain ⟨ran, good, found⟩ := run_header (k := directoryBody stack alignment) version tensors entries rfl
    (f.whole_found unset)
  have skips : Reads (times (skipEntry stack) f.entries.length) f.metadataBytes (f.entries.map fun _ => ()) :=
    reads_times fun e member => reads_skipEntry (well e member) ((frames_entry member).trans deep)
  obtain ⟨ran', -, -⟩ := skips.run_bind (q := fun _ => readDirectory alignment f.tensors.length) good found
  rw [← skip_metadata]
  exact ran.trans ran'

end

/-- Where the stack is deep enough, both walkers consume exactly the metadata, and the directory is read from there. -/
theorem walkers_agree (version : f.version < 2 ^ 32) (tensors : f.tensors.length < 2 ^ 64)
    (entries : f.entries.length < 2 ^ 64) (well : ∀ e ∈ f.entries, e.WellFormed) :
    ∃ depth, ∀ stack ≥ depth, ∀ (unset : Nat → UInt8) (alignment : Nat),
      parseGgufMetadata stack { bytes := f.encode, unset } =
        .ok ((metadataOf f.entries : GgufMetadata R), f.behindMetadata unset) ∧
      parseGgufDirectory stack alignment { bytes := f.encode, unset } =
        readDirectory alignment f.tensors.length (f.behindMetadata unset) :=
  ⟨f.frames, fun _ deep unset alignment =>
    ⟨parseGgufMetadata_run version tensors entries well deep unset,
      parseGgufDirectory_run version tensors entries well deep unset alignment⟩⟩

/-- Strings where the tokenizer expects them, numbers where it expects strings, and arrays of arrays. -/
def nested : GgufFile where
  version := 3
  entries := [⟨.ofAscii "tokenizer.ggml.tokens", .array 8 [.str (.ofAscii "a"), .str []]⟩,
    ⟨.ofAscii "tokenizer.ggml.merges", .array 4 [.scalar 4 1, .scalar 4 2]⟩,
    ⟨.ofAscii "x", .array 9 [.array 8 [.str (.ofAscii "b")], .array 1 [], .array 9 [.array 7 [.scalar 7 1]]]⟩,
    ⟨[], .scalar 12 0⟩]
  tensors := []
  data := [0xFF]

theorem nested_wellFormed : ∀ e ∈ nested.entries, e.WellFormed := by
  intro e member
  simp only [nested, List.mem_cons, List.not_mem_nil, or_false] at member
  rcases member with rfl | rfl | rfl | rfl
  all_goals
    constructor
    · decide
    · simp +decide [GgufValue.WellFormed, GgufValue.AllOf]

theorem walkers_agree_nested : ∃ depth, ∀ stack ≥ depth, ∀ (unset : Nat → UInt8) (alignment : Nat),
    parseGgufMetadata stack { bytes := nested.encode, unset } =
      .ok ((metadataOf nested.entries : GgufMetadata ℚ), nested.behindMetadata unset) ∧
    parseGgufDirectory stack alignment { bytes := nested.encode, unset } =
      readDirectory alignment nested.tensors.length (nested.behindMetadata unset) :=
  walkers_agree (by decide) (by decide) (by decide) nested_wellFormed

theorem metadataOf_sized {f : GgufFile} (well : f.WellFormed R) : Sized (metadataOf f.entries : GgufMetadata R) := by
  have loop : ∀ (es : List GgufEntry) (m : GgufMetadata R), (∀ e ∈ es, e.Unsigned) → Sized m → Sized (es.foldl .add m) := by
    intro es
    induction es with
    | nil => exact fun _ _ sized => sized
    | cons e es ih =>
      intro m unsigned sized
      exact ih _ (fun e' member => unsigned e' (List.mem_cons_of_mem e member)) (sized.add (unsigned e List.mem_cons_self))
  exact loop f.entries {} well.geometry nofun

theorem parseGgufMetadata_encode (well : f.WellFormed R) (deep : f.frames < stack) (unset : Nat → UInt8) :
    onFile (parseGgufMetadata stack) f.encode unset = .ok (metadataOf f.entries : GgufMetadata R) := by
  have tensors := well.tensors.1
  have entries := well.entries.1
  unfold onFile
  rw [parseGgufMetadata_run well.version (by omega) (by omega) well.entries.2 deep.le unset]
  rfl

/-- The directory is read whatever follows it. -/
theorem parseGgufDirectory_listed (version : f.version < 2 ^ 32) (count : f.tensors.length < 2 ^ 64)
    (tensors : ∀ t ∈ f.tensors, t.WellFormed) (entries : f.entries.length < 2 ^ 64) (well : ∀ e ∈ f.entries, e.WellFormed)
    (deep : f.frames ≤ stack) (size : f.directoryEnd < 2 ^ 64) (unset : Nat → UInt8) (alignment : Nat) :
    onFile (parseGgufDirectory stack alignment) f.encode unset = .ok ⟨f.tensors, alignUp f.directoryEnd alignment⟩ := by
  have position : ((f.directoryEnd : Int) % 2 ^ 64).toNat = f.directoryEnd := by omega
  have found : f.directoryBytes ++ f.data <+: (f.behindMetadata unset).rest := by
    rw [← skip_metadata, InputStream.skip_skip, InputStream.skip_rest, InputStream.rest_of_good rfl]
    change _ <+: f.encode.drop (24 + _)
    rw [encode, ← List.append_assoc, List.drop_left' (by rw [List.length_append, f.header_length])]
  have reads : Reads (times readTensorInfo f.tensors.length) f.directoryBytes (f.tensors.map id) :=
    reads_times fun t member => reads_tensorInfo (tensors t member)
  obtain ⟨ran, -, -⟩ := reads.run_bind (q := fun tensors => do
    let pos ← tell
    return (⟨tensors, alignUp (pos % 2 ^ 64).toNat alignment⟩ : GgufDirectory)) rfl found
  unfold onFile
  rw [parseGgufDirectory_run version count entries well deep unset]
  change (readDirectory alignment f.tensors.length (f.behindMetadata unset) >>= fun done => pure done.1) = _
  rw [readDirectory, ran, List.map_id]
  change Except.ok (⟨f.tensors, alignUp ((f.directoryEnd : Int) % 2 ^ 64).toNat alignment⟩ : GgufDirectory) = _
  rw [position]

theorem parseGgufDirectory_encode (well : f.WellFormed R) (deep : f.frames < stack) (unset : Nat → UInt8)
    (alignment : Nat) :
    onFile (parseGgufDirectory stack alignment) f.encode unset = .ok ⟨f.tensors, alignUp f.directoryEnd alignment⟩ := by
  have tensors := well.tensors.1
  have entries := well.entries.1
  have size := well.size
  rw [encode, List.length_append, List.length_append, List.length_append, f.header_length] at size
  have short : f.directoryEnd < 2 ^ 64 := by
    rw [directoryEnd, metadataEnd]
    omega
  exact parseGgufDirectory_listed well.version (by omega) well.tensors.2 (by omega) well.entries.2 deep.le short unset
    alignment

end GgufFile

/-- The array of an `F32` tensor with these bytes. -/
def float32Array (R : Type) [Floats R] (shape : List Int) (bytes : Bytes) : MlxArray R :=
  ⟨.float32, shape, (runsOf 4 (numElements shape).toNat bytes).map fun b => .inr (Floats.ofFloat (fromLittleEndian b))⟩

theorem readDenseTensor_float32 {s : InputStream} {pos : Nat} {shape : List Int} {buf : Bytes} (good : s.failed = false)
    (small : pos < 2 ^ 63) (nonneg : 0 ≤ numElements shape) (size : buf.length = (numElements shape).toNat * 4)
    (found : buf <+: s.bytes.drop pos) :
    Yields (readDenseTensor pos shape kGgmlF32) s fun (a : MlxArray R) s' =>
      a = float32Array R shape buf ∧ s'.failed = false ∧ s'.bytes = s.bytes := by
  have jump : s.seekTo (signed 8 pos) = { s with pos := pos } := by
    rw [signed_of_lt small, InputStream.seekTo, if_neg (by rw [good]; decide), if_neg (by omega), Int.toNat_natCast]
  unfold readDenseTensor
  rw [vectorSize_of_nonneg nonneg]
  refine Yields.bind (P := fun n t => n = (numElements shape).toNat ∧ s = t) ⟨_, _, rfl, rfl, rfl⟩ ?_
  rintro _ _ ⟨rfl, rfl⟩
  refine Yields.bind (P := fun _ t => t = { s with pos := pos }) ⟨_, _, rfl, jump⟩ ?_
  rintro _ _ rfl
  rw [if_pos rfl]
  have read : Reads (ε := GgufError) (readInto (List.replicate ((numElements shape).toNat * 4) 0)) buf buf :=
    reads_into (by rw [List.length_replicate, size])
  have here : buf <+: ({ s with pos := pos } : InputStream).rest := by
    rw [InputStream.rest_of_good (s := { s with pos := pos }) good]
    exact found
  apply (read.yields (s := { s with pos := pos }) good here).bind
  rintro _ _ ⟨rfl, rfl⟩
  exact yields_pure ⟨rfl, good, rfl⟩

end Mlxforge
