import Mlxforge.Core.GgufMetadata
import Mlxforge.Lib.Stores
import Mlxforge.Lib.Table

/-!
The tensors of a GGUF file as `core/gguf.cpp` loads them: the tensor directory, the layouts the loader understands, the
canonical names, and the order of the q/k projection rows.
-/

namespace Mlxforge

open StreamReader

inductive Dtype where
  | uint32 | float16 | float32
  deriving DecidableEq, Repr

/-- An `mx::array`, row-major: packed words or floating-point values. -/
structure MlxArray (R : Type) where
  dtype : Dtype
  shape : List Int
  cells : List (UInt32 ⊕ R)

def kGgmlF32 : Nat := 0
def kGgmlF16 : Nat := 1
def kGgmlQ4_0 : Nat := 2
def kGgmlQ4_1 : Nat := 3
def kGgmlQ8_0 : Nat := 8
def kGgmlQ4_K : Nat := 12
def kGgmlQ5_K : Nat := 13
def kGgmlQ6_K : Nat := 14

def isDense (t : Nat) : Prop := t = kGgmlF32 ∨ t = kGgmlF16
def isLegacyQuant (t : Nat) : Prop := t = kGgmlQ4_0 ∨ t = kGgmlQ4_1 ∨ t = kGgmlQ8_0
def isKQuant (t : Nat) : Prop := t = kGgmlQ4_K ∨ t = kGgmlQ5_K ∨ t = kGgmlQ6_K

instance (t : Nat) : Decidable (isDense t) := inferInstanceAs (Decidable (_ ∨ _))
instance (t : Nat) : Decidable (isLegacyQuant t) := inferInstanceAs (Decidable (_ ∨ _ ∨ _))
instance (t : Nat) : Decidable (isKQuant t) := inferInstanceAs (Decidable (_ ∨ _ ∨ _))

structure GgufTensorInfo where
  name : Bytes
  ggmlType : Nat
  /-- In ggml's order, innermost first. -/
  dims : List Nat
  /-- From the start of the tensor data. -/
  offset : Nat
  deriving DecidableEq, Repr

structure GgufDirectory where
  tensors : List GgufTensorInfo
  /-- Where the tensor data starts in the file. -/
  dataStart : Nat

/-- One turn of the metadata loop of `parse_gguf_directory`. -/
def skipEntry (stack : Nat) : GgufReader Unit := do
  let _key ← readGgufString
  let type ← readScalar 4
  skipMetadataValue stack type

def readTensorInfo : GgufReader GgufTensorInfo := do
  let name ← readGgufString
  let nd ← readScalar 4
  let dims ← times (readScalar 8) nd
  let ggmlType ← readScalar 4
  let offset ← readScalar 8
  return { name, ggmlType, dims, offset }

/-- `pos` rounded up to a multiple of `alignment`, in `uint64_t`. -/
def alignUp (pos alignment : Nat) : Nat := (pos + alignment - 1) % 2 ^ 64 / alignment * alignment % 2 ^ 64

def parseGgufDirectory (stack alignment : Nat) : GgufReader GgufDirectory := do
  let magic ← readScalar 4
  if magic ≠ kGgufMagic then throw .badMagic
  else
    let _version ← readScalar 4
    let nTensors ← readScalar 8
    let nKv ← readScalar 8
    let _ ← times (skipEntry stack) nKv
    let tensors ← times readTensorInfo nTensors
    let pos ← tell
    return { tensors, dataStart := alignUp (pos % 2 ^ 64).toNat alignment }

/-- `while ((mant & 0x400) == 0)`, which takes at most ten turns. -/
def normalizeHalf : (turns : Nat) → (exp mant : Nat) → Nat × Nat
  | 0, exp, mant => (exp, mant)
  | turns + 1, exp, mant =>
    if mant &&& 0x400 = 0 then normalizeHalf turns (exp - 1) (mant <<< 1) else (exp, mant)

/-- The bits of the `float` equal to a half. -/
def halfToFloatBits (h : Nat) : Nat :=
  let sign := (h &&& 0x8000) <<< 16
  let exp := (h >>> 10) &&& 0x1F
  let mant := h &&& 0x3FF
  if exp = 0 then
    if mant = 0 then sign
    else
      let (exp, mant) := normalizeHalf 10 (127 - 15 + 1) mant
      sign ||| (exp <<< 23) ||| ((mant &&& 0x3FF) <<< 13)
  else if exp = 0x1F then sign ||| 0x7F800000 ||| (mant <<< 13)
  else sign ||| ((exp + 127 - 15) <<< 23) ||| (mant <<< 13)

variable {R : Type} [Floats R]

def halfToFloat (h : Nat) : R := Floats.ofFloat (halfToFloatBits h)

/-- `static_cast<int>` of an unsigned value. -/
def castToInt (v : Nat) : Int := signed 4 (v % 2 ^ 32)

def numElements (shape : List Int) : Int := shape.foldl (· * ·) 1

/-- The size of a vector that is constructed with `n` elements. -/
def vectorSize (n : Int) : GgufReader Nat := if n < 0 then throw .length else return n.toNat

/-- Consecutive runs of `k` elements. -/
def runsOf {α : Type} (k n : Nat) (xs : List α) : List (List α) := (List.range n).map fun i => (xs.drop (i * k)).take k

/-- One block of a legacy-quantized tensor. -/
structure LegacyBlock (R : Type) where
  scale : R
  bias : R
  packed : Bytes

/-- Two low nibbles a byte, then two high ones: quants 0 to 15 are the low nibbles, 16 to 31 the high ones. -/
def repackNibbles (rb : Bytes) : Bytes :=
  let byte (i : Nat) : UInt8 := rb.getD i 0
  ((List.range 8).map fun k => (byte (2 * k) &&& (0x0F : UInt8)) ||| ((byte (2 * k + 1) &&& 0x0F) <<< 4)) ++
    (List.range 8).map fun k => (byte (2 * k) >>> 4) ||| ((byte (2 * k + 1) >>> 4) <<< 4)

/-- The stored minimum, or what moves the integers to zero. -/
def readLegacyBias (type : Nat) (scale : R) : GgufReader R :=
  if type = kGgmlQ4_1 then do
    let m ← readScalar 2
    return halfToFloat m
  else if type = kGgmlQ4_0 then return Floats.ofInt (-8) * scale
  else return Floats.ofInt (-128) * scale

def readLegacyBlock (type : Nat) : GgufReader (LegacyBlock R) := do
  let d ← readScalar 2
  let scale := halfToFloat d
  let bias ← readLegacyBias type scale
  if type = kGgmlQ8_0 then
    let rb ← readFresh 32
    return { scale, bias, packed := rb.map (· ^^^ 0x80) }
  else
    let rb ← readFresh 16
    return { scale, bias, packed := repackNibbles rb }

structure QuantArrays (R : Type) where
  weight : MlxArray R
  scales : MlxArray R
  biases : MlxArray R

/-- The little-endian words of a byte buffer. -/
def packedWords (bytes : Bytes) : List UInt32 :=
  (runsOf 4 (bytes.length / 4) bytes).map fun w => UInt32.ofNat (fromLittleEndian w)

def extractLegacyQuant (dataPos : Nat) (shape : List Int) (type : Nat) : GgufReader (QuantArrays R) := do
  let cols := shape.getLastD 0
  let bits := if type = kGgmlQ8_0 then 8 else 4
  let n ← vectorSize (numElements shape)
  seekTo (signed 8 dataPos)
  let blocks ← times (readLegacyBlock (R := R) type) (n / 32)
  let lead := shape.dropLast
  return {
    weight := ⟨.uint32, lead ++ [(cols * bits).tdiv 32], (packedWords (blocks.flatMap (·.packed))).map .inl⟩
    scales := ⟨.float16, lead ++ [cols.tdiv 32], blocks.map fun b => .inr (Floats.toHalf b.scale)⟩
    biases := ⟨.float16, lead ++ [cols.tdiv 32], blocks.map fun b => .inr (Floats.toHalf b.bias)⟩ }

/-- `get_scale_min_k4`: the 6-bit scale and minimum of sub-block `j`. -/
def getScaleMinK4 (j : Nat) (q : Nat → Nat) : Nat × Nat :=
  if j < 4 then (q j &&& 63, q (j + 4) &&& 63)
  else ((q (j + 4) &&& 0x0F) ||| ((q (j - 4) >>> 6) <<< 4), (q (j + 4) >>> 4) ||| ((q j >>> 6) <<< 4))

def le16 (blk : Nat → Nat) (i : Nat) : Nat := blk i + 256 * blk (i + 1)

/-- `for (int l = 0; l < 32; ++l) *yp++ = value;`. -/
def push32 (yp : Nat) (value : Nat → R) : List (Nat × R) := (List.range 32).map fun l => (yp + l, value l)

/-- The loop over pairs of sub-blocks: what it assigns, and where `yp` is left. `st` is what it moves besides `is` and `yp`;
`low` and `high` are the quants of the two sub-blocks. -/
def pairLoop {σ : Type} (d dmin : R) (scales : Nat → Nat) (low high : σ → Nat → Nat) (next : σ → σ) :
    (turns is : Nat) → σ → (yp : Nat) → List (Nat × R) × Nat
  | 0, _, _, yp => ([], yp)
  | turns + 1, is, st, yp =>
    let (sc, m) := getScaleMinK4 is scales
    let d1 := d * Floats.ofInt sc
    let m1 := dmin * Floats.ofInt m
    let (sc, m) := getScaleMinK4 (is + 1) scales
    let d2 := d * Floats.ofInt sc
    let m2 := dmin * Floats.ofInt m
    let first := push32 yp fun l => d1 * Floats.ofInt (low st l) - m1
    let second := push32 (yp + 32) fun l => d2 * Floats.ofInt (high st l) - m2
    let (rest, yp) := pairLoop d dmin scales low high next turns (is + 2) (next st) (yp + 64)
    (first ++ (second ++ rest), yp)

/-- The loop moves `q`. -/
def superBlockQ4K (blk : Nat → Nat) : (yp : Nat) → List (Nat × R) × Nat :=
  pairLoop (halfToFloat (le16 blk 0)) (halfToFloat (le16 blk 2)) (fun i => blk (4 + i))
    (fun q l => blk (q + l) &&& 0x0F) (fun q l => blk (q + l) >>> 4) (· + 32) 4 0 16

/-- What the loop of `Q5_K` moves: the pointer to the low bits, and the masks of the high ones. -/
structure Q5Cursor where
  ql : Nat
  u1 : Nat
  u2 : Nat

/-- The masks are `uint8_t`. -/
def Q5Cursor.next (st : Q5Cursor) : Q5Cursor := ⟨st.ql + 32, (st.u1 <<< 2) % 2 ^ 8, (st.u2 <<< 2) % 2 ^ 8⟩

def superBlockQ5K (blk : Nat → Nat) : (yp : Nat) → List (Nat × R) × Nat :=
  let qh l := blk (16 + l)
  pairLoop (halfToFloat (le16 blk 0)) (halfToFloat (le16 blk 2)) (fun i => blk (4 + i))
    (fun st l => (blk (st.ql + l) &&& 0x0F) + if qh l &&& st.u1 ≠ 0 then 16 else 0)
    (fun st l => (blk (st.ql + l) >>> 4) + if qh l &&& st.u2 ≠ 0 then 16 else 0) Q5Cursor.next 4 0 ⟨48, 1, 2⟩

/-- The loop over the two halves of a `Q6_K` super-block. -/
def halfLoop (blk : Nat → Nat) (d : R) : (turns ql qh sc yp : Nat) → List (Nat × R) × Nat
  | 0, _, _, _, yp => ([], yp)
  | turns + 1, ql, qh, sc, yp =>
    let scale i : R := Floats.ofInt (signed 1 (blk (sc + i)))
    let stores := (List.range 32).flatMap fun l =>
      let is := l / 16
      let q1 := signed 1 ((blk (ql + l) &&& 0x0F) ||| (((blk (qh + l) >>> 0) &&& 3) <<< 4)) - 32
      let q2 := signed 1 ((blk (ql + l + 32) &&& 0x0F) ||| (((blk (qh + l) >>> 2) &&& 3) <<< 4)) - 32
      let q3 := signed 1 ((blk (ql + l) >>> 4) ||| (((blk (qh + l) >>> 4) &&& 3) <<< 4)) - 32
      let q4 := signed 1 ((blk (ql + l + 32) >>> 4) ||| (((blk (qh + l) >>> 6) &&& 3) <<< 4)) - 32
      [(yp + l + 0, d * scale (is + 0) * Floats.ofInt q1), (yp + l + 32, d * scale (is + 2) * Floats.ofInt q2),
        (yp + l + 64, d * scale (is + 4) * Floats.ofInt q3), (yp + l + 96, d * scale (is + 6) * Floats.ofInt q4)]
    let (rest, yp) := halfLoop blk d turns (ql + 64) (qh + 32) (sc + 8) (yp + 128)
    (stores ++ rest, yp)

def superBlockQ6K (blk : Nat → Nat) : (yp : Nat) → List (Nat × R) × Nat :=
  halfLoop blk (halfToFloat (le16 blk 208)) 2 0 128 192

/-- The bytes of one super-block. -/
def superBlockBytes (type : Nat) : Nat := if type = kGgmlQ4_K then 144 else if type = kGgmlQ5_K then 176 else 210

/-- The loop over the super-blocks from `s` on. -/
def superBlockLoop (type : Nat) (raw : Bytes) : (turns s yp : Nat) → List (Nat × R)
  | 0, _, _ => []
  | turns + 1, s, yp =>
    let blk i := (raw.getD (s * superBlockBytes type + i) 0).toNat
    let (writes, yp) :=
      if type = kGgmlQ4_K then superBlockQ4K blk yp
      else if type = kGgmlQ5_K then superBlockQ5K blk yp
      else superBlockQ6K blk yp
    writes ++ superBlockLoop type raw turns (s + 1) yp

def dequantizeKQuant (dataPos : Nat) (n : Int) (type : Nat) : GgufReader (List R) := do
  let n ← vectorSize n
  let raw : Bytes := List.replicate (n / 256 * superBlockBytes type) 0
  seekTo (signed 8 dataPos)
  let raw ← readInto raw
  return store (List.replicate n (Floats.ofInt 0)) (superBlockLoop type raw (n / 256) 0 0)

def readDenseTensor (pos : Nat) (shape : List Int) (type : Nat) : GgufReader (MlxArray R) := do
  let n ← vectorSize (numElements shape)
  seekTo (signed 8 pos)
  if type = kGgmlF32 then
    let buf ← readInto (List.replicate (n * 4) 0)
    return ⟨.float32, shape, (runsOf 4 n buf).map fun b => .inr (Floats.ofFloat (fromLittleEndian b))⟩
  else
    let raw ← readInto (List.replicate (n * 2) 0)
    return ⟨.float16, shape,
      (runsOf 2 n raw).map fun b => .inr (Floats.toHalf (halfToFloat (fromLittleEndian b)))⟩

abbrev Tensors (R : Type) := Table Bytes (MlxArray R)

def endsWith (s suffix : Bytes) : Prop := suffix <:+ s

instance (s suffix : Bytes) : Decidable (endsWith s suffix) := inferInstanceAs (Decidable (_ <:+ _))

/-- `substr(0, size() - 7)`, whose length wraps around on a shorter text. -/
def dropSuffix (s : Bytes) : Bytes := if s.length < 7 then s else s.take (s.length - 7)

/-- One turn of the loop of `load_gguf_tensors`. -/
def loadTensor (dataStart : Nat) (out : Tensors R) (t : GgufTensorInfo) : GgufReader (Tensors R) := do
  let shape := t.dims.reverse.map castToInt
  let pos := (dataStart + t.offset) % 2 ^ 64
  if isDense t.ggmlType then
    let a ← readDenseTensor pos shape t.ggmlType
    return Table.emplace out t.name a
  else if isLegacyQuant t.ggmlType then
    let qa ← extractLegacyQuant pos shape t.ggmlType
    let base := dropSuffix t.name
    let out := Table.emplace out t.name qa.weight
    let out := Table.emplace out (base ++ .ofAscii ".scales") qa.scales
    return Table.emplace out (base ++ .ofAscii ".biases") qa.biases
  else if isKQuant t.ggmlType then
    let values ← dequantizeKQuant (R := R) pos (numElements shape) t.ggmlType
    return Table.emplace out t.name ⟨.float16, shape, values.map fun x => .inr (Floats.toHalf x)⟩
  else throw (.quantType t.ggmlType t.name)

/-- `load_gguf_tensors`; the file is opened a first time for the directory and a second time for the data. -/
def loadGgufTensors (stack alignment : Nat) (file : Bytes) (unset : Nat → Nat → UInt8) : Except GgufError (Tensors R) := do
  let dir ← onFile (parseGgufDirectory stack (max 1 alignment)) file (unset 0)
  onFile (dir.tensors.foldlM (loadTensor dir.dataStart) ∅) file (unset 1)

def blockModules : List (Bytes × Bytes) := [
  (.ofAscii "attn_q", .ofAscii "self_attn.q_proj"), (.ofAscii "attn_k", .ofAscii "self_attn.k_proj"),
  (.ofAscii "attn_v", .ofAscii "self_attn.v_proj"), (.ofAscii "attn_output", .ofAscii "self_attn.o_proj"),
  (.ofAscii "attn_norm", .ofAscii "input_layernorm"), (.ofAscii "ffn_gate", .ofAscii "mlp.gate_proj"),
  (.ofAscii "ffn_up", .ofAscii "mlp.up_proj"), (.ofAscii "ffn_down", .ofAscii "mlp.down_proj"),
  (.ofAscii "ffn_norm", .ofAscii "post_attention_layernorm"),
  (.ofAscii "attn_q_norm", .ofAscii "self_attn.q_norm"), (.ofAscii "attn_k_norm", .ofAscii "self_attn.k_norm"),
  (.ofAscii "ffn_gate_inp", .ofAscii "mlp.gate"), (.ofAscii "ffn_gate_exps", .ofAscii "mlp.switch_mlp.gate_proj"),
  (.ofAscii "ffn_up_exps", .ofAscii "mlp.switch_mlp.up_proj"),
  (.ofAscii "ffn_down_exps", .ofAscii "mlp.switch_mlp.down_proj")]

def remapBlockModule (rest : Bytes) : Option Bytes := blockModules.lookup rest

/-- The `.weight`, `.scales` or `.biases` at the end of a name. -/
def nameSuffix (name : Bytes) : Option Bytes :=
  [Bytes.ofAscii ".weight", .ofAscii ".scales", .ofAscii ".biases"].find? fun s => endsWith name s

/-- The canonical name of what precedes the suffix. -/
def remapBase (base : Bytes) : Option Bytes :=
  if base = .ofAscii "token_embd" then some (.ofAscii "model.embed_tokens")
  else if base = .ofAscii "output_norm" then some (.ofAscii "model.norm")
  else if base = .ofAscii "output" then some (.ofAscii "lm_head")
  else if base = .ofAscii "rope_freqs" then none
  else if Bytes.ofAscii "blk." <+: base then
    let idx := (base.drop 4).takeWhile (· ≠ '.'.toUInt8)
    match (base.drop 4).dropWhile (· ≠ '.'.toUInt8) with
    | [] => none
    | _ :: rest => (remapBlockModule rest).map fun mapped =>
        Bytes.ofAscii "model.layers." ++ idx ++ .ofAscii "." ++ mapped
  else none

def remapGgufKey (name : Bytes) : Option Bytes :=
  match nameSuffix name with
  | some suffix => (remapBase (dropSuffix name)).map (· ++ suffix)
  | none => remapBase name

/-- The loop of `load_gguf_model` over the tensors: canonical names, floating-point values cast to `float16`. -/
def canonicalTensors (tensors : Tensors R) : Tensors R :=
  tensors.entries.foldl (fun w e => match remapGgufKey e.1 with
    | some key => Table.emplace w key (match e.2.dtype with
      | .uint32 => e.2
      | _ => { e.2 with dtype := .float16, cells := e.2.cells.map (Sum.map id Floats.toHalf) })
    | none => w) ∅

/-- `mx::take` along axis 0; a negative index counts from the end. -/
def MlxArray.takeRows (a : MlxArray R) (index : List Int) : Except GgufError (MlxArray R) :=
  match a.shape with
  | [] => .error .invalidArgument
  | rows :: tail =>
    if numElements a.shape = 0 ∧ index ≠ [] then .error .invalidArgument
    else
      let width := (numElements tail).toNat
      .ok { a with
        shape := index.length :: tail
        cells := index.flatMap fun i => (a.cells.drop ((if i < 0 then i + rows else i).toNat * width)).take width }

def unpermuteIndex (headDim hf : Int) : Int :=
  let half := headDim.tdiv 2
  let h := hf.tdiv headDim
  let rem := hf.tmod headDim
  let b := rem.tdiv half
  let aa := rem.tmod half
  h * headDim + aa * 2 + b

def unpermuteQkRows (a : MlxArray R) (nHead headDim : Int) : Except GgufError (MlxArray R) :=
  let out := nHead * headDim
  if out < 0 then .error .length
  else a.takeRows ((List.range out.toNat).map fun hf : Nat => unpermuteIndex headDim hf)

/-- The keys of the q/k projections of layer `i`, each with its number of heads. -/
def qkKeys (c : GgufConfig R) (i : Nat) : List (Bytes × Int) :=
  let p := Bytes.ofAscii "model.layers." ++ .ofAscii (toString i) ++ .ofAscii ".self_attn."
  [(Bytes.ofAscii "q_proj", c.nHeads), (.ofAscii "k_proj", c.nKvHeads)].flatMap fun (proj, heads) =>
    [Bytes.ofAscii ".weight", .ofAscii ".scales", .ofAscii ".biases"].map fun suf => (p ++ proj ++ suf, heads)

def unpermuteKey (headDim : Int) (w : Tensors R) (key : Bytes × Int) : Except GgufError (Tensors R) :=
  match w.lookup key.1 with
  | some a => do
    let a ← unpermuteQkRows a key.2 headDim
    return w.insert key.1 a
  | none => .ok w

def unpermuteQk (w : Tensors R) (c : GgufConfig R) : Except GgufError (Tensors R) :=
  ((List.range c.nLayers.toNat).flatMap (qkKeys c)).foldlM (unpermuteKey c.headDim) w

/-- The bit width of each quantized weight, from the columns of the weight and of its scales. -/
def indexGgufQuant (w : Tensors R) : Except GgufError (List (Bytes × Int)) :=
  (w.entries.filter fun e => endsWith e.1 (.ofAscii ".scales")).mapM fun e =>
    let base := dropSuffix e.1
    match w.lookup (base ++ .ofAscii ".weight") with
    | none => .error .outOfRange
    | some weight =>
      let wcols := weight.shape.getLastD 0
      let scols := e.2.shape.getLastD 0
      .ok (base, if 0 < scols then wcols.tdiv scols else 0)

structure GgufModel (R : Type) where
  head : GgufHead R
  weights : Tensors R
  /-- Group size 32 throughout. -/
  quant : List (Bytes × Int)

/-- `load_gguf_model` from the tensors on. -/
def buildModel (head : GgufHead R) (tensors : Tensors R) : Except GgufError (GgufModel R) := do
  let factors := (tensors.lookup (.ofAscii "rope_freqs.weight")).map fun rf => rf.cells.filterMap Sum.getRight?
  let canonical := canonicalTensors tensors
  let config := { head.config with
    ropeFreqFactors := factors
    tieWordEmbeddings := decide (Bytes.ofAscii "lm_head.weight" ∉ canonical) }
  let weights ← unpermuteQk canonical config
  let quant ← indexGgufQuant weights
  return { head := { head with config }, weights, quant }

/-- The file is opened three times; `unset` is what the uninitialised destinations hold in each. -/
def loadGgufModel (stack : Nat) (file : Bytes) (unset : Nat → Nat → UInt8) : Except GgufError (GgufModel R) := do
  let m ← onFile (parseGgufMetadata stack) file (unset 0)
  let head ← modelHeadFromMetadata m
  let alignment := (gmIntOr m (.ofAscii "general.alignment") 32 % 2 ^ 64).toNat
  let tensors ← loadGgufTensors stack alignment file fun i => unset (i + 1)
  buildModel head tensors

end Mlxforge
