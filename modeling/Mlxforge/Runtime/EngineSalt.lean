import Mathlib.Data.Set.Function
import Mlxforge.Runtime.Engine

/-!
Which engines can share a block key. The salt is the hash of the fingerprint alone, so it separates exactly the
configurations that the fingerprint tells apart.
-/

namespace Mlxforge

namespace Engine

variable {ec ec' : EngineConfig} {ck ck' : Checkpoint} {e e' : Engine}

/-- The text of the engine's salt. -/
def identity (ec : EngineConfig) (e : Engine) : String := fingerprint ec e.config e.modelName

def saltOf (text : String) : UInt64 := fnv1a text.toUTF8.toList

theorem validatePrefixCache_ok {mc : ModelConfig} {name : String} {pc : PrefixCacheConfig}
    (on : ec.prefixCache = true) (ok : validatePrefixCache ec mc name = .ok pc) :
    pc.salt = saltOf (fingerprint ec mc name) ∧ pc.blockSize = ec.kvBlockSize.toNat := by
  unfold validatePrefixCache at ok
  simp only [on, Bool.not_true, Bool.false_eq_true, if_false] at ok
  split at ok
  · cases ok
  · split at ok
    · cases ok
    · split at ok
      · cases ok
      · cases ok
        exact ⟨rfl, rfl⟩

theorem create_ok (made : create ec ck = .ok e) (on : ec.prefixCache = true) :
    e.prefixCfg.salt = saltOf (identity ec e) ∧ e.prefixCfg.blockSize = ec.kvBlockSize.toNat := by
  unfold create at made
  obtain ⟨config, _, made⟩ := bind_ok made
  obtain ⟨kvQuant, _, made⟩ := bind_ok made
  obtain ⟨prefixCfg, checked, made⟩ := bind_ok made
  obtain ⟨model, _, made⟩ := bind_ok made
  obtain rfl := pure_ok made
  exact validatePrefixCache_ok on checked

theorem create_of {config : ModelConfig} {model : Weights} {kvQuant : KVQuantConfig} {prefixCfg : PrefixCacheConfig}
    (head : loadHead ec.ropeScaling ck = .ok config) (quant : validateKvQuant ec config = .ok kvQuant)
    (checked : validatePrefixCache ec config ec.modelSpec = .ok prefixCfg)
    (loaded : createModel config ck.weights = .ok model) :
    create ec ck = .ok ⟨ec.modelSpec, config, model, kvQuant, prefixCfg⟩ := by
  unfold create
  rw [head, ok_bind, quant, ok_bind, checked, ok_bind, loaded]
  rfl

/-- The chains two engines hash, each from its own salt. -/
def chains (e e' : Engine) (involved : Set (List Int × Nat)) : Set (UInt64 × List (List Int)) :=
  {c | ∃ p ∈ involved, c = (e.prefixCfg.salt, chainOf e.prefixCfg.blockSize p.1 p.2) ∨
    c = (e'.prefixCfg.salt, chainOf e'.prefixCfg.blockSize p.1 p.2)}

/-- The engines compute no block key in common. -/
def Separated (e e' : Engine) (involved : Set (List Int × Nat)) : Prop :=
  ∀ p ∈ involved, ∀ p' ∈ involved, e.blockKey p.1 p.2 ≠ e'.blockKey p'.1 p'.2

variable {involved : Set (List Int × Nat)}

theorem separated_of_salts (chained : Set.InjOn (fun c => c.2.foldl chainHash c.1) (chains e e' involved))
    (differ : e.prefixCfg.salt ≠ e'.prefixCfg.salt) : Separated e e' involved := by
  intro p member p' member' same
  rw [blockKey, blockKey, chainKey_eq_foldl, chainKey_eq_foldl] at same
  have pairs := chained ⟨p, member, .inl rfl⟩ ⟨p', member', .inr rfl⟩ same
  exact differ (congrArg Prod.fst pairs)

theorem shared_of_identity (made : create ec ck = .ok e) (made' : create ec' ck' = .ok e') (on : ec.prefixCache = true)
    (on' : ec'.prefixCache = true) (same : identity ec e = identity ec' e') (ids : List Int) (n : Nat) :
    e.blockKey ids n = e'.blockKey ids n := by
  obtain ⟨salt, blockSize⟩ := create_ok made on
  obtain ⟨salt', blockSize'⟩ := create_ok made' on'
  obtain ⟨_, _, _, _, size⟩ := fingerprint_fields same
  rw [blockKey, blockKey, salt, salt', same, blockSize, blockSize', size]

/-- Engines that store different K/V for some prompt share no block key, exactly when their fingerprints differ
or they store the same K/V after all. -/
theorem separates_iff [Slot Heads] (made : create ec ck = .ok e) (made' : create ec' ck' = .ok e')
    (on : ec.prefixCache = true) (on' : ec'.prefixCache = true)
    (hashed : Set.InjOn saltOf {identity ec e, identity ec' e'})
    (chained : Set.InjOn (fun c => c.2.foldl chainHash c.1) (chains e e' involved)) (some : involved.Nonempty) :
    ((∃ ids, e.storedBlocks ids ≠ e'.storedBlocks ids) → Separated e e' involved) ↔
      identity ec e ≠ identity ec' e' ∨ ∀ ids, e.storedBlocks ids = e'.storedBlocks ids := by
  constructor
  · intro separates
    by_cases same : identity ec e = identity ec' e'
    · right
      by_contra differ
      obtain ⟨p, member⟩ := some
      push Not at differ
      exact separates differ p member p member (shared_of_identity made made' on on' same p.1 p.2)
    · exact .inl same
  · rintro (differ | same) ⟨ids, stored⟩
    · apply separated_of_salts chained
      rw [(create_ok made on).1, (create_ok made' on').1]
      intro salts
      exact differ (hashed (by simp) (by simp) salts)
    · exact absurd (same ids) stored

/-! ### A scaling the fingerprint does not see -/

section witness

/-- Groups of one number: each quantizes to its bias. -/
noncomputable instance : Slot Heads := ⟨[], fun _ _ x => (x.map (·.map fun _ => 0), x.map (·.map fun _ => 1), x)⟩

/-- One layer of one head of two dimensions: every token's key is `(1, 0)` before the rotation. -/
noncomputable def flatWeights : Weights where
  nLayers := 1
  embed := fun _ => [1, 0]
  projectQkv := fun _ h => ([h], [h], [h])
  ropeQ := fun _ x => x
  ropeK := fun _ x => x
  sdpa := fun _ _ _ => [0, 0]
  oProj := fun _ h => h
  add := fun _ h => h
  postAttentionLayernorm := fun _ h => h
  feedForward := fun _ h => h
  norm := id
  lmHead := id
  zeroLogits := []

noncomputable def flatCheckpoint : Checkpoint where
  config := { modelType := "llama", nLayers := 1, headDim := 2, ropeTheta := 10000 }
  weights := flatWeights

/-- Blocks of 16 tokens, the checkpoint's own schedule or one stretched by a linear factor of two. -/
noncomputable def sharing (ropeScaling : Option RopeScaling) : EngineConfig :=
  { modelSpec := "m", prefixCache := true, kvBlockSize := 16, ropeScaling }

noncomputable def stretched : RopeScaling := { ropeType := "linear", factor := (2 : ℕ) }

noncomputable def stretchedConfig : ModelConfig := applyRopeScalingOverride flatCheckpoint.config stretched

noncomputable def sharingEngine (config : ModelConfig) (freq : ℝ) : Engine where
  modelName := "m"
  config := config
  model := { flatWeights with
    ropeQ := applyRope 2 { freqs := [freq] }
    ropeK := applyRope 2 { freqs := [freq] } }
  kvQuant := {}
  prefixCfg := {
    enabled := true
    blockSize := 16
    salt := saltOf (fingerprint (sharing none) flatCheckpoint.config "m") }

theorem validateKvQuant_sharing (rs : Option RopeScaling) (mc : ModelConfig) :
    validateKvQuant (sharing rs) mc = .ok {} := by
  unfold validateKvQuant
  exact if_pos rfl

theorem validatePrefixCache_sharing (rs : Option RopeScaling) {mc : ModelConfig} (text : mc.hasVisionTower = false)
    (dense : mc.fullAttentionInterval = 0) : validatePrefixCache (sharing rs) mc "m" =
      .ok { enabled := true, blockSize := 16, salt := saltOf (fingerprint (sharing none) mc "m") } := by
  have same : fingerprint (sharing rs) mc "m" = fingerprint (sharing none) mc "m" := rfl
  unfold validatePrefixCache
  rw [same, ← saltOf]
  simp [sharing, text, dense]

theorem baseFreqs_two (base : ℝ) : baseFreqs 2 base = [1] := by
  simp [baseFreqs]

theorem create_plain : create (sharing none) flatCheckpoint = .ok (sharingEngine flatCheckpoint.config 1) := by
  have freqs : baseFreqs flatCheckpoint.config.headDim flatCheckpoint.config.ropeTheta = [1] := baseFreqs_two _
  apply create_of
  · rfl
  · exact validateKvQuant_sharing none _
  · exact validatePrefixCache_sharing none rfl rfl
  · unfold createModel computeRopeSetup
    rw [freqs]
    rfl

theorem validateRopeScaling_stretched : validateRopeScaling stretchedConfig = .ok () := by
  have positive : ¬(2 : ℝ) ≤ 0 := by norm_num
  simp only [validateRopeScaling, stretchedConfig, applyRopeScalingOverride, stretched, flatCheckpoint]
  simp [positive]

theorem create_stretched : create (sharing (some stretched)) flatCheckpoint = .ok (sharingEngine stretchedConfig 2) := by
  have freqs : baseFreqs stretchedConfig.headDim stretchedConfig.ropeTheta = [1] := baseFreqs_two _
  apply create_of
  · change (do validateRopeScaling stretchedConfig; pure stretchedConfig) = Except.ok stretchedConfig
    rw [validateRopeScaling_stretched]
    rfl
  · exact validateKvQuant_sharing (some stretched) _
  · exact validatePrefixCache_sharing (some stretched) rfl rfl
  · unfold createModel computeRopeSetup
    rw [validateRopeScaling_stretched, freqs]
    simp [stretchedConfig, applyRopeScalingOverride, flatCheckpoint, stretched, flatWeights]

theorem solo_flat (config : ModelConfig) (freq : ℝ) (n : Nat) :
    ((sharingEngine config freq).model.solo {} (List.replicate n 0)).1 =
      ⟨0, n, [(List.range n).map fun i : Nat => ⟨[applyRope 2 { freqs := [freq] } i [[1, 0]]], [[[1, 0]]]⟩]⟩ := by
  induction n with
  | zero => rfl
  | succ n ih =>
    rw [List.replicate_succ', ← DecoderModel.solo_append, DecoderModel.rowRun, List.foldl_cons, List.foldl_nil, ih,
      List.range_succ, List.map_append]
    rfl

/-- The key stored for the second token: `(1, 0)` turned by the angle `1 / freq`. -/
theorem stored_key (config : ModelConfig) (freq : ℝ) :
    ((((sharingEngine config freq).storedBlocks (List.replicate 16 0))[0]?.bind (·[0]?)).bind (·[1]?)).map (·.k) =
      some [[[Real.cos (1 / freq), Real.sin (1 / freq)]]] := by
  have row : ((sharingEngine config freq).model.solo (sharingEngine config freq).kvQuant (List.replicate 16 0)).1 = _ :=
    solo_flat config freq 16
  simp only [storedBlocks, row]
  simp [sharingEngine, applyRope, fastRope]

theorem stored_differ (config config' : ModelConfig) :
    (sharingEngine config 1).storedBlocks (List.replicate 16 0) ≠
      (sharingEngine config' 2).storedBlocks (List.replicate 16 0) := by
  intro same
  have keys := stored_key config 1
  rw [same, stored_key config' 2] at keys
  have angles : Real.cos (1 / 2) = Real.cos (1 / 1) := by
    injection keys with keys
    injection keys with keys _
    injection keys with keys _
    injection keys with keys _
  have := Real.two_le_pi
  have half : (1 / 2 : ℝ) = 1 / 1 :=
    Real.injOn_cos ⟨by norm_num, by linarith⟩ ⟨by norm_num, by linarith⟩ angles
  norm_num at half

theorem identity_sharing : identity (sharing (some stretched)) (sharingEngine stretchedConfig 2) =
    identity (sharing none) (sharingEngine flatCheckpoint.config 1) := rfl

/-- The single chain of one block. -/
def oneBlock : Set (List Int × Nat) := {(List.replicate 16 0, 1)}

theorem hashed_sharing : Set.InjOn saltOf {identity (sharing none) (sharingEngine flatCheckpoint.config 1),
    identity (sharing (some stretched)) (sharingEngine stretchedConfig 2)} := by
  rw [identity_sharing, Set.pair_eq_singleton]
  exact Set.injOn_singleton _ _

theorem chained_sharing : Set.InjOn (fun c => c.2.foldl chainHash c.1)
    (chains (sharingEngine flatCheckpoint.config 1) (sharingEngine stretchedConfig 2) oneBlock) := by
  rintro c ⟨_, rfl, rfl | rfl⟩ c' ⟨_, rfl, rfl | rfl⟩ _ <;> rfl

theorem shared_key_stretched : ∃ e e', create (sharing none) flatCheckpoint = .ok e ∧
    create (sharing (some stretched)) flatCheckpoint = .ok e' ∧
    Set.InjOn saltOf {identity (sharing none) e, identity (sharing (some stretched)) e'} ∧
    Set.InjOn (fun c => c.2.foldl chainHash c.1) (chains e e' oneBlock) ∧
    (∃ ids, e.storedBlocks ids ≠ e'.storedBlocks ids) ∧ ¬Separated e e' oneBlock := by
  refine ⟨_, _, create_plain, create_stretched, hashed_sharing, chained_sharing, ⟨_, stored_differ _ _⟩, ?_⟩
  intro separated
  exact separated _ rfl _ rfl rfl

theorem separates_iff_sharing : ((∃ ids, (sharingEngine flatCheckpoint.config 1).storedBlocks ids ≠
      (sharingEngine stretchedConfig 2).storedBlocks ids) →
    Separated (sharingEngine flatCheckpoint.config 1) (sharingEngine stretchedConfig 2) oneBlock) ↔
      identity (sharing none) (sharingEngine flatCheckpoint.config 1) ≠
        identity (sharing (some stretched)) (sharingEngine stretchedConfig 2) ∨
      ∀ ids, (sharingEngine flatCheckpoint.config 1).storedBlocks ids =
        (sharingEngine stretchedConfig 2).storedBlocks ids :=
  separates_iff create_plain create_stretched rfl rfl hashed_sharing chained_sharing ⟨_, rfl⟩

end witness

end Engine

end Mlxforge
