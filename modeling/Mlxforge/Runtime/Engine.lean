import Mlxforge.Cache.PrefixCache
import Mlxforge.Model.Rope
import Mlxforge.Runtime.PrefillAgreement
import Mlxforge.Lib.Fields

/-!
Engine construction: the checks on the requested cache settings, the salt of the prefix cache, and the model the
worker runs.
-/

namespace Mlxforge

/-- The settings that decide what the caches hold. `ropeScaling` is the parsed override. -/
structure EngineConfig where
  modelSpec : String
  kvBits : Int := 0
  kvGroupSize : Int := 64
  prefixCache : Bool := false
  kvBlockSize : Int := 256
  kvPoolBytes : Nat := 1073741824
  kvSpillDir : String := ""
  kvSpillBytes : Nat := 0
  ropeScaling : Option RopeScaling := none

/-- What a model directory provides. -/
structure Checkpoint where
  config : ModelConfig
  isGguf : Bool := false
  weights : Weights

def validateKvQuant (ec : EngineConfig) (mc : ModelConfig) : Except String KVQuantConfig :=
  if ec.kvBits = 0 then .ok {}
  else if ec.kvBits ≠ 4 ∧ ec.kvBits ≠ 8 then .error ("kv_bits must be 0 (off), 4, or 8; got " ++ toString ec.kvBits)
  else if ec.kvGroupSize ≠ 32 ∧ ec.kvGroupSize ≠ 64 ∧ ec.kvGroupSize ≠ 128 then
    .error ("kv_group_size must be 32, 64, or 128; got " ++ toString ec.kvGroupSize)
  else if (mc.headDim : Int) % ec.kvGroupSize ≠ 0 then
    .error ("kv_group_size " ++ toString ec.kvGroupSize ++ " does not divide head_dim " ++ toString mc.headDim)
  else if mc.hasVisionTower then .error "KV-cache quantization is not supported for vision-language models"
  else if mc.fullAttentionInterval > 0 then
    .error "KV-cache quantization is not supported for hybrid (Qwen3.5) models"
  else .ok { bits := ec.kvBits, groupSize := ec.kvGroupSize }

/-- The text the salt is the hash of. -/
def fingerprint (ec : EngineConfig) (mc : ModelConfig) (modelName : String) : String :=
  modelName ++ "|" ++ mc.modelType ++ "|" ++ toString mc.nLayers ++ "|" ++ toString ec.kvBits ++ "|" ++
    toString ec.kvGroupSize ++ "|" ++ toString ec.kvBlockSize

def validatePrefixCache (ec : EngineConfig) (mc : ModelConfig) (modelName : String) : Except String PrefixCacheConfig :=
  if !ec.prefixCache then
    if ec.kvSpillDir ≠ "" then .error "kv_spill_dir requires prefix_cache to be enabled" else .ok {}
  else
    let bs := ec.kvBlockSize
    if bs < 16 ∨ bs > 4096 ∨ bs.toNat &&& (bs.toNat - 1) ≠ 0 then
      .error ("kv_block_size must be a power of two in [16, 4096]; got " ++ toString bs)
    else if mc.hasVisionTower then .error "the prefix cache is not supported for vision-language models"
    else if mc.fullAttentionInterval > 0 then
      .error "the prefix cache is not supported for hybrid (Qwen3.5) models"
    else .ok {
      enabled := true
      blockSize := bs.toNat
      poolBytes := ec.kvPoolBytes
      spillDir := ec.kvSpillDir
      spillBytes := ec.kvSpillBytes
      salt := fnv1a (fingerprint ec mc modelName).toUTF8.toList }

/-- `load_head`: the checkpoint's config under the override. -/
noncomputable def loadHead (ropeScaling : Option RopeScaling) (ck : Checkpoint) : Except String ModelConfig := do
  let cfg ← match ropeScaling with
    | none => pure ck.config
    | some rs =>
      if ck.isGguf then throw "rope_scaling override is not supported for GGUF models"
      else pure (applyRopeScalingOverride ck.config rs)
  validateRopeScaling cfg
  return cfg

structure Engine where
  modelName : String
  config : ModelConfig
  model : Weights
  kvQuant : KVQuantConfig
  prefixCfg : PrefixCacheConfig

namespace Engine

noncomputable def create (ec : EngineConfig) (ck : Checkpoint) : Except String Engine := do
  let config ← loadHead ec.ropeScaling ck
  let kvQuant ← validateKvQuant ec config
  let prefixCfg ← validatePrefixCache ec config ec.modelSpec
  let model ← createModel config ck.weights
  return { modelName := ec.modelSpec, config, model, kvQuant, prefixCfg }

/-- The key of a prompt's first `n` blocks. -/
def blockKey (e : Engine) (ids : List Int) (n : Nat) : UInt64 :=
  chainKey e.prefixCfg.salt e.prefixCfg.blockSize ids n

/-- The K/V of a prompt's full blocks, block by block and layer by layer. -/
def storedBlocks [Slot Heads] (e : Engine) (ids : List Int) : List (List (List (Entry Heads))) :=
  let bs := e.prefixCfg.blockSize
  let layers := (e.model.solo e.kvQuant ids).1.layers
  (List.range (ids.length / bs)).map fun b => layers.map fun entries => (entries.drop (b * bs)).take bs

end Engine

/-- The blocks a key chains. -/
def chainOf (bs : Nat) (ids : List Int) (n : Nat) : List (List Int) :=
  (List.range n).map fun b => (ids.drop (b * bs)).take bs

theorem chainKey_eq_foldl (salt : UInt64) (bs : Nat) (ids : List Int) (n : Nat) :
    chainKey salt bs ids n = (chainOf bs ids n).foldl chainHash salt := by
  induction n with
  | zero => rfl
  | succ n ih => rw [chainKey, ih, chainOf, chainOf, List.range_succ, List.map_append, List.foldl_append]; rfl

/-! ### Fingerprints -/

theorem toString_int_no_bar (i : Int) : '|' ∉ (toString i).toList := by
  rcases toString_int_cases i with ⟨n, _, text⟩ | ⟨n, _, text⟩ <;> rw [text]
  · exact digits_no_separator rfl n
  · rw [String.toList_append, List.mem_append]
    rintro (sign | digits)
    · simp at sign
    · exact digits_no_separator rfl (n + 1) digits

/-- Equal fingerprints agree in every number they are made of. -/
theorem fingerprint_fields {ec ec' : EngineConfig} {mc mc' : ModelConfig} {name name' : String}
    (same : fingerprint ec mc name = fingerprint ec' mc' name') :
    name ++ "|" ++ mc.modelType = name' ++ "|" ++ mc'.modelType ∧ mc.nLayers = mc'.nLayers ∧
      ec.kvBits = ec'.kvBits ∧ ec.kvGroupSize = ec'.kvGroupSize ∧ ec.kvBlockSize = ec'.kvBlockSize := by
  have texts := congrArg String.toList same
  have bar : "|".toList = ['|'] := rfl
  simp only [fingerprint, String.toList_append, bar] at texts
  obtain ⟨texts, blockSize⟩ := append_field_inj (toString_int_no_bar _) (toString_int_no_bar _) texts
  obtain ⟨texts, groupSize⟩ := append_field_inj (toString_int_no_bar _) (toString_int_no_bar _) texts
  obtain ⟨texts, bits⟩ := append_field_inj (toString_int_no_bar _) (toString_int_no_bar _) texts
  obtain ⟨texts, layers⟩ := append_field_inj (digits_no_separator rfl _) (digits_no_separator rfl _) texts
  refine ⟨String.toList_inj.mp ?_, toString_nat_inj layers, toString_int_inj bits, toString_int_inj groupSize,
    toString_int_inj blockSize⟩
  simpa only [String.toList_append, bar] using texts

end Mlxforge
