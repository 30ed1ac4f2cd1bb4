import Mathlib.Analysis.SpecialFunctions.Pow.Real
import Mathlib.Analysis.SpecialFunctions.Trigonometric.Basic
import Mlxforge.Model.Decoder

/-!
Rotary position embedding in exact arithmetic: the frequency schedule a model config asks for, and the rotation
of the queries and keys.
-/

namespace Mlxforge

structure RopeScaling where
  ropeType : String
  factor : ℝ := 1
  highFreqFactor : ℝ := 1
  lowFreqFactor : ℝ := 1
  originalMaxPositionEmbeddings : Int := 0
  betaFast : ℝ := 32
  betaSlow : ℝ := 1
  mscale : ℝ := 1
  mscaleAllDim : ℝ := 0

/-- The fields of the model config that the rotary embedding and the engine's checks read. -/
structure ModelConfig where
  modelType : String
  nLayers : Nat
  headDim : Nat
  ropeTheta : ℝ
  maxPositionEmbeddings : Int := 0
  fullAttentionInterval : Int := 0
  partialRotaryFactor : ℝ := 1
  hasVisionTower : Bool := false
  mropeSection : List Int := []
  ropeScaling : Option RopeScaling := none
  ropeFreqFactors : Option (List ℝ) := none

open Classical in
noncomputable def validateRopeScaling (cfg : ModelConfig) : Except String Unit :=
  match cfg.ropeScaling with
  | none => .ok ()
  | some rs =>
    let t := rs.ropeType
    if t = "" ∨ t = "default" ∨ t = "llama3" then .ok ()
    else if t = "yarn" ∨ t = "linear" then
      if cfg.fullAttentionInterval > 0 ∨ cfg.partialRotaryFactor ≠ 1 then
        .error ("rope_scaling '" ++ t ++ "' is not supported for hybrid / partial-rotary models")
      else if cfg.hasVisionTower ∨ cfg.mropeSection ≠ [] then
        .error ("rope_scaling '" ++ t ++ "' is not supported for M-RoPE vision models")
      else if cfg.ropeFreqFactors.isSome then
        .error ("rope_scaling '" ++ t ++ "' conflicts with checkpoint-baked rope frequency factors")
      else if rs.factor ≤ 0 then .error ("rope_scaling '" ++ t ++ "' requires factor > 0")
      else if t = "yarn" ∧ rs.originalMaxPositionEmbeddings ≤ 0 then
        .error "rope_scaling 'yarn' requires original_max_position_embeddings > 0"
      else .ok ()
    else .error ("unsupported rope_scaling rope_type '" ++ t ++ "' (supported: default, llama3, yarn, linear)")

/-- The override replaces the scaling; a yarn override without the original window scales the shipped context. -/
def applyRopeScalingOverride (cfg : ModelConfig) (rs : RopeScaling) : ModelConfig :=
  let rs := if rs.ropeType = "yarn" ∧ rs.originalMaxPositionEmbeddings ≤ 0 then
    { rs with originalMaxPositionEmbeddings := cfg.maxPositionEmbeddings } else rs
  { cfg with ropeScaling := some rs }

structure RopeSetup where
  freqs : List ℝ
  mscale : ℝ := 1

open Classical in
noncomputable def yarnGetMscale (scale mscale : ℝ) : ℝ :=
  if scale ≤ 1 then 1 else 0.1 * mscale * Real.log scale + 1

/-- `base ** (arange(0, hd, 2) / hd)`. -/
noncomputable def baseFreqs (hd : Nat) (base : ℝ) : List ℝ :=
  (List.range ((hd + 1) / 2)).map fun i => base ^ ((2 * i : ℝ) / hd)

/-- Interpolated and extrapolated frequencies, blended by a ramp between the two correction dims. -/
noncomputable def yarnFreqs (hd : Nat) (base : ℝ) (rs : RopeScaling) (freqs : List ℝ) : List ℝ :=
  let orig : ℝ := rs.originalMaxPositionEmbeddings
  let correctionDim := fun rotations : ℝ =>
    hd * Real.log (orig / (rotations * (2 * Real.pi))) / (2 * Real.log base)
  let low : ℝ := max (⌊correctionDim rs.betaFast⌋ : ℝ) 0
  let high : ℝ := min (⌈correctionDim rs.betaSlow⌉ : ℝ) ((hd : ℝ) - 1)
  let high := open Classical in if low = high then high + 0.001 else high
  freqs.mapIdx fun i extra =>
    let ramp := min (max (((i : ℝ) - low) / (high - low)) 0) 1
    let mask := 1 - ramp
    let inter := rs.factor * extra
    inter * extra / (inter * mask + extra * (1 - mask))

open Classical in
noncomputable def llama3Freqs (rs : RopeScaling) (freqs : List ℝ) : List ℝ :=
  let oldCtx : ℝ := rs.originalMaxPositionEmbeddings
  let lowWl := oldCtx / rs.lowFreqFactor
  let highWl := oldCtx / rs.highFreqFactor
  freqs.map fun f =>
    let wavelen := 2 * Real.pi * f
    let scaled := if lowWl < wavelen then f * rs.factor else f
    let smooth := (oldCtx / wavelen - rs.lowFreqFactor) / (rs.highFreqFactor - rs.lowFreqFactor)
    if highWl < wavelen ∧ wavelen < lowWl then scaled / ((1 - smooth) / rs.factor + smooth) else scaled

noncomputable def computeRopeSetup (cfg : ModelConfig) : Except String RopeSetup := do
  validateRopeScaling cfg
  let freqs := baseFreqs cfg.headDim cfg.ropeTheta
  match cfg.ropeFreqFactors, cfg.ropeScaling with
  | some factors, _ => return { freqs := List.zipWith (· * ·) freqs factors }
  | none, none => return { freqs }
  | none, some rs =>
    if rs.ropeType = "linear" then return { freqs := freqs.map (· * rs.factor) }
    else if rs.ropeType = "yarn" then
      return { freqs := yarnFreqs cfg.headDim cfg.ropeTheta rs freqs
               mscale := yarnGetMscale rs.factor rs.mscale / yarnGetMscale rs.factor rs.mscaleAllDim }
    else if rs.ropeType = "llama3" then return { freqs := llama3Freqs rs freqs }
    else return { freqs }

/-- `fast::rope` with given frequencies: dimension `i` of the first half turns with its partner in the second. -/
noncomputable def fastRope (dims : Nat) (freqs : List ℝ) (position : Int) (x : List ℝ) : List ℝ :=
  let half := dims / 2
  let angle := fun i => (position : ℝ) / freqs.getD i 1
  (List.range half).map (fun i =>
      x.getD i 0 * Real.cos (angle i) - x.getD (i + half) 0 * Real.sin (angle i)) ++
    (List.range half).map fun i =>
      x.getD i 0 * Real.sin (angle i) + x.getD (i + half) 0 * Real.cos (angle i)

/-- The values of all heads at one position. -/
abbrev Heads := List (List ℝ)

noncomputable def applyRope (headDim : Nat) (rope : RopeSetup) (position : Int) (x : Heads) : Heads :=
  x.map fun head => fastRope headDim rope.freqs position (head.map (rope.mscale * ·))

/-- What the weights contribute to a forward pass; the two rotary fields are overwritten at construction. -/
abbrev Weights := DecoderModel Heads (List ℝ) Heads (List ℝ)

noncomputable def createModel (cfg : ModelConfig) (w : Weights) : Except String Weights := do
  let rope ← computeRopeSetup cfg
  return { w with
    nLayers := cfg.nLayers
    ropeQ := applyRope cfg.headDim rope
    ropeK := applyRope cfg.headDim rope }

end Mlxforge
