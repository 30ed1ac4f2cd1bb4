import Mlxforge.Lib.InputStream

/-!
The key/value section of a GGUF file as `core/gguf.cpp` reads it: the walker that skips values, the walker that
interprets them, and the configuration built from what it found. No read is checked.
-/

namespace Mlxforge

open StreamReader

/-- `float` and `double` values. -/
class Floats (R : Type) extends Mul R, Sub R where
  ofInt : Int → R
  /-- The `float` with these 32 bits. -/
  ofFloat : Nat → R
  /-- The `double` with these 64 bits. -/
  ofDouble : Nat → R
  /-- `static_cast<int>`. -/
  toInt : R → Int
  toInt_ofInt : ∀ i : Int, 0 ≤ i → i < 2 ^ 31 → toInt (ofInt i) = i
  /-- `static_cast<float>`. -/
  toFloat : R → R
  /-- `astype(float16)`. -/
  toHalf : R → R

inductive GgufError where
  | badMagic
  | unknownType (type : Nat)
  | nonNumeric (type : Nat)
  | missing (key : Bytes)
  | qwen3next
  | architecture (arch : Bytes)
  | quantType (type : Nat) (name : Bytes)
  /-- `std::length_error`, of a vector of negative size. -/
  | length
  /-- `std::out_of_range`, of `at`. -/
  | outOfRange
  /-- `std::invalid_argument`, of `mx::take`. -/
  | invalidArgument
  /-- The call stack is exhausted, which no caller catches. -/
  | stackOverflow
  deriving DecidableEq, Repr

/-- The texts of the errors that the loader itself throws. -/
def GgufError.what (path : Bytes) : GgufError → Option Bytes
  | badMagic => some (.ofAscii "gguf: bad magic in '" ++ path ++ .ofAscii "'")
  | unknownType type => some (.ofAscii "gguf: unknown metadata value type " ++ .ofAscii (toString type))
  | nonNumeric type => some (.ofAscii "gguf: non-numeric metadata type " ++ .ofAscii (toString type))
  | missing key => some (.ofAscii "gguf: missing metadata '" ++ key ++ .ofAscii "'")
  | qwen3next => some (.ofAscii ("gguf: Qwen3.5/qwen3next GGUF is not yet supported (its gated-DeltaNet " ++
      "linear-attention layers have no validated GGUF tensor mapping)"))
  | architecture arch => some (.ofAscii "gguf: unsupported architecture '" ++ arch ++
      .ofAscii "' (expected llama/qwen2/qwen3/qwen3moe)")
  | quantType type name => some (.ofAscii "gguf: unsupported tensor quant type " ++ .ofAscii (toString type) ++
      .ofAscii " for '" ++ name ++ .ofAscii "' (supported: F32/F16, Q4_0/Q4_1/Q8_0, Q4_K/Q5_K/Q6_K)")
  | length | outOfRange | invalidArgument | stackOverflow => none

abbrev GgufReader (α : Type) := StreamReader GgufError α

def kGgufMagic : Nat := 0x46554747

/-- An integer of `n` bytes, in two's complement. -/
def signed (n v : Nat) : Int := if v < 2 ^ (8 * n - 1) then v else v - 2 ^ (8 * n)

/-- `read_scalar` of an unsigned type of `n` bytes. -/
def readScalar (n : Nat) : GgufReader Nat := do
  let v ← readFresh n
  return fromLittleEndian v

def readGgufString : GgufReader Bytes := do
  let n ← readScalar 8
  if n = 0 then return [] else readInto (List.replicate n 0)

/-- The widths of the scalar types; `-1` marks strings and arrays. -/
def scalarWidths : List Int := [1, 1, 2, 2, 4, 4, 4, 1, -1, -1, 8, 8, 8]

def skipArrayElements (skipValue : Nat → GgufReader Unit) (et cnt : Nat) : GgufReader Unit := do
  match scalarWidths[et]? with
  | some width =>
    if 0 < width then seekBy (signed 8 cnt * width)
    else
      let _ ← times (skipValue et) cnt
      return ()
  | none =>
    let _ ← times (skipValue et) cnt
    return ()

/-- Every nested array takes one more frame of the call stack. -/
def skipMetadataValue : (stack : Nat) → (type : Nat) → GgufReader Unit
  | 0, _ => throw .stackOverflow
  | stack + 1, type =>
    if type = 0 ∨ type = 1 ∨ type = 7 then seekBy 1
    else if type = 2 ∨ type = 3 then seekBy 2
    else if type = 4 ∨ type = 5 ∨ type = 6 then seekBy 4
    else if type = 10 ∨ type = 11 ∨ type = 12 then seekBy 8
    else if type = 8 then do
      let n ← readScalar 8
      seekBy (signed 8 n)
    else if type = 9 then do
      let et ← readScalar 4
      let cnt ← readScalar 8
      skipArrayElements (skipMetadataValue stack) et cnt
    else throw (.unknownType type)

structure GgufMetadata (R : Type) where
  nums : Bytes → Option R := fun _ => none
  strs : Bytes → Option Bytes := fun _ => none
  tokens : List Bytes := []
  merges : List Bytes := []
  tokenTypes : List Int := []

def isNumericType (t : Nat) : Prop := t ≤ 7 ∨ (10 ≤ t ∧ t ≤ 12)

instance (t : Nat) : Decidable (isNumericType t) := inferInstanceAs (Decidable (_ ∨ _))

variable {R : Type} [Floats R]

def readNumeric (type : Nat) : GgufReader R :=
  match type with
  | 0 | 7 => do
    let v ← readScalar 1
    return Floats.ofInt v
  | 1 => do
    let v ← readScalar 1
    return Floats.ofInt (signed 1 v)
  | 2 => do
    let v ← readScalar 2
    return Floats.ofInt v
  | 3 => do
    let v ← readScalar 2
    return Floats.ofInt (signed 2 v)
  | 4 => do
    let v ← readScalar 4
    return Floats.ofInt v
  | 5 => do
    let v ← readScalar 4
    return Floats.ofInt (signed 4 v)
  | 6 => do
    let v ← readScalar 4
    return Floats.ofFloat v
  | 10 => do
    let v ← readScalar 8
    return Floats.ofInt v
  | 11 => do
    let v ← readScalar 8
    return Floats.ofInt (signed 8 v)
  | 12 => do
    let v ← readScalar 8
    return Floats.ofDouble v
  | type => throw (.nonNumeric type)

/-- The array that follows a key, which only the tokenizer's keys keep. -/
def parseArray (stack : Nat) (m : GgufMetadata R) (key : Bytes) : GgufReader (GgufMetadata R) := do
  let et ← readScalar 4
  let cnt ← readScalar 8
  if key = .ofAscii "tokenizer.ggml.tokens" ∧ et = 8 then
    let tokens ← times readGgufString cnt
    return { m with tokens := tokens }
  else if key = .ofAscii "tokenizer.ggml.merges" ∧ et = 8 then
    let merges ← times readGgufString cnt
    return { m with merges := merges }
  else if key = .ofAscii "tokenizer.ggml.token_type" ∧ isNumericType et then
    let types ← times (readNumeric (R := R) et) cnt
    return { m with tokenTypes := types.map Floats.toInt }
  else
    skipArrayElements (skipMetadataValue stack) et cnt
    return m

/-- The value of a key, by its type. -/
def parseValue (stack : Nat) (m : GgufMetadata R) (key : Bytes) (vt : Nat) : GgufReader (GgufMetadata R) :=
  if vt = 8 then do
    let v ← readGgufString
    return { m with strs := Function.update m.strs key (some v) }
  else if isNumericType vt then do
    let v ← readNumeric vt
    return { m with nums := Function.update m.nums key (some v) }
  else if vt = 9 then parseArray stack m key
  else throw (.unknownType vt)

/-- One turn of the loop of `parse_gguf_metadata`. -/
def parseEntry (stack : Nat) (m : GgufMetadata R) : GgufReader (GgufMetadata R) := do
  let key ← readGgufString
  let vt ← readScalar 4
  parseValue stack m key vt

def parseEntries (stack : Nat) : (n : Nat) → (m : GgufMetadata R) → GgufReader (GgufMetadata R)
  | 0, m => return m
  | n + 1, m => do
    let m ← parseEntry stack m
    parseEntries stack n m

def parseGgufMetadata (stack : Nat) : GgufReader (GgufMetadata R) := do
  let magic ← readScalar 4
  if magic ≠ kGgufMagic then throw .badMagic
  else
    let _version ← readScalar 4
    let _tensors ← readScalar 8
    let n ← readScalar 8
    parseEntries stack n {}

def gmInt (m : GgufMetadata R) (k : Bytes) : Except GgufError Int :=
  match m.nums k with
  | some v => .ok (Floats.toInt v)
  | none => .error (.missing k)

def gmIntOr (m : GgufMetadata R) (k : Bytes) (default : Int) : Int := ((m.nums k).map Floats.toInt).getD default

def gmFloat (m : GgufMetadata R) (k : Bytes) : Except GgufError R :=
  match m.nums k with
  | some v => .ok (Floats.toFloat v)
  | none => .error (.missing k)

def gmFloatOr (m : GgufMetadata R) (k : Bytes) (default : R) : R := ((m.nums k).map Floats.toFloat).getD default

def gmStr (m : GgufMetadata R) (k : Bytes) (default : Bytes := []) : Bytes := (m.strs k).getD default

/-- The fields of `ModelConfig` that the loader sets. -/
structure GgufConfig (R : Type) where
  modelType : Bytes
  nLayers : Int
  hidden : Int
  nHeads : Int
  nKvHeads : Int
  numExperts : Int
  numExpertsPerTok : Int
  moeIntermediateSize : Int
  intermediateSize : Int
  headDim : Int
  rmsEps : R
  ropeTheta : R
  maxPositionEmbeddings : Int
  vocab : Int
  bosTokenId : Int
  eosTokenIds : List Int
  ropeFreqFactors : Option (List R) := none
  tieWordEmbeddings : Bool := false

/-- The architectures that `config_from_gguf` accepts. -/
def acceptedArchs : List Bytes := [.ofAscii "llama", .ofAscii "qwen2", .ofAscii "qwen3", .ofAscii "qwen3moe"]

/-- The fields that are read once the architecture is accepted, under the keys of its name. -/
def configFields (m : GgufMetadata R) (arch : Bytes) : Except GgufError (GgufConfig R) := do
  let p := arch ++ .ofAscii "."
  let nLayers ← gmInt m (p ++ .ofAscii "block_count")
  let hidden ← gmInt m (p ++ .ofAscii "embedding_length")
  let nHeads ← gmInt m (p ++ .ofAscii "attention.head_count")
  let nKvHeads := gmIntOr m (p ++ .ofAscii "attention.head_count_kv") nHeads
  let numExperts := gmIntOr m (p ++ .ofAscii "expert_count") 0
  let numExpertsPerTok := gmIntOr m (p ++ .ofAscii "expert_used_count") 0
  let moeIntermediateSize := gmIntOr m (p ++ .ofAscii "expert_feed_forward_length") 0
  let intermediateSize := gmIntOr m (p ++ .ofAscii "feed_forward_length") moeIntermediateSize
  let headDim := gmIntOr m (p ++ .ofAscii "attention.key_length")
    (gmIntOr m (p ++ .ofAscii "rope.dimension_count") (hidden.tdiv (max 1 nHeads)))
  let rmsEps ← gmFloat m (p ++ .ofAscii "attention.layer_norm_rms_epsilon")
  let eos := gmIntOr m (.ofAscii "tokenizer.ggml.eos_token_id") (-1)
  return {
    modelType := if arch = .ofAscii "qwen3moe" then .ofAscii "qwen3_moe" else arch
    nLayers, hidden, nHeads, nKvHeads, numExperts, numExpertsPerTok, moeIntermediateSize, intermediateSize
    headDim, rmsEps
    ropeTheta := gmFloatOr m (p ++ .ofAscii "rope.freq_base") (Floats.ofInt 10000)
    maxPositionEmbeddings := gmIntOr m (p ++ .ofAscii "context_length") 0
    vocab := gmIntOr m (p ++ .ofAscii "vocab_size") m.tokens.length
    bosTokenId := gmIntOr m (.ofAscii "tokenizer.ggml.bos_token_id") (-1)
    eosTokenIds := if 0 ≤ eos then [eos] else [] }

def configFromGguf (m : GgufMetadata R) : Except GgufError (GgufConfig R) :=
  let arch := gmStr m (.ofAscii "general.architecture")
  if arch = .ofAscii "qwen3next" then .error .qwen3next
  else if arch ∉ acceptedArchs then .error (.architecture arch)
  else configFields m arch

/-- What `GgufModel` holds besides the weights. -/
structure GgufHead (R : Type) where
  config : GgufConfig R
  tokens : List Bytes
  merges : List Bytes
  tokenTypes : List Int
  bosId : Int
  eosId : Int
  pre : Bytes

def modelHeadFromMetadata (m : GgufMetadata R) : Except GgufError (GgufHead R) := do
  let config ← configFromGguf m
  return {
    config, tokens := m.tokens, merges := m.merges, tokenTypes := m.tokenTypes
    bosId := if gmIntOr m (.ofAscii "tokenizer.ggml.add_bos_token") 1 ≠ 0 then config.bosTokenId else -1
    eosId := gmIntOr m (.ofAscii "tokenizer.ggml.eos_token_id") (-1)
    pre := gmStr m (.ofAscii "tokenizer.ggml.pre") }

/-- A computation on the file, opened anew; `unset` is what its uninitialised destinations hold. -/
def onFile {α : Type} (p : GgufReader α) (file : Bytes) (unset : Nat → UInt8) : Except GgufError α := do
  let (a, _) ← p { bytes := file, unset }
  return a

/-- `load_gguf_config_and_tokenizer`. -/
def loadGgufConfigAndTokenizer (stack : Nat) (file : Bytes) (unset : Nat → UInt8) : Except GgufError (GgufHead R) := do
  let m ← onFile (parseGgufMetadata stack) file unset
  modelHeadFromMetadata m

end Mlxforge
