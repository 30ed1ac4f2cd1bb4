import Mlxforge.Model.Qwen3Vl
import Mlxforge.Model.Rope

/-!
M-RoPE in exact arithmetic: every frequency turns by the position of one axis. On text, where the axes agree, it is the
rotation of the text decoder, unless the frequencies were rescaled.
-/

namespace Mlxforge

/-- `for (int i = first; i < stop; i += 3) sel[i] = axis;`, for an `axis` that is also its first index. -/
def markAxis (axis : Nat) (stop : Int) (sel : List Nat) : List Nat :=
  sel.mapIdx fun i old => if axis ≤ i ∧ (i - axis) % 3 = 0 ∧ (i : Int) < stop then axis else old

/-- The axis of every frequency: temporal, with height and width interleaved. -/
def buildSelector (headDim : Nat) (mropeSection : List Int) : List Nat :=
  let half := headDim / 2
  let sel := List.replicate half 0
  match mropeSection with
  | [_, height, width] => markAxis 2 (min (width * 3) half) (markAxis 1 (min (height * 3) half) sel)
  | _ => sel

noncomputable def buildInvFreq (headDim : Nat) (ropeTheta : ℝ) : List ℝ :=
  (List.range ((headDim + 1) / 2)).map fun i : Nat => (ropeTheta ^ (((2 * i : Nat) : ℝ) / headDim))⁻¹

/-- A row of the (3, seq) position table. -/
def MropePosition.axis (p : MropePosition) : Nat → Nat
  | 0 => p.temporal
  | 1 => p.height
  | _ => p.width

/-- `mrope_cos_sin` of one column. -/
noncomputable def mropeCosSin (cfg : ModelConfig) (p : MropePosition) : List ℝ × List ℝ :=
  let freqs := List.zipWith (fun axis inv => (p.axis axis : ℝ) * inv) (buildSelector cfg.headDim cfg.mropeSection)
    (buildInvFreq cfg.headDim cfg.ropeTheta)
  (freqs.map Real.cos, freqs.map Real.sin)

/-- The half-split rotation of one head, the cosines and sines tiled over its two halves. -/
noncomputable def rotateHead (half : Nat) (cos sin : List ℝ) (x : List ℝ) : List ℝ :=
  let rot := fun d => if d < half then -x.getD (d + half) 0 else x.getD (d - half) 0
  (List.range (half + half)).map fun d => x.getD d 0 * (cos ++ cos).getD d 0 + rot d * (sin ++ sin).getD d 0

noncomputable def applyMrope (cfg : ModelConfig) (p : MropePosition) (x : Heads) : Heads :=
  let cs := mropeCosSin cfg p
  x.map (rotateHead (cfg.headDim / 2) cs.1 cs.2)

/-- The constructor, over that of the text decoder. -/
noncomputable def createQwen3VL (cfg : ModelConfig) (w : Weights) (imageTokenId : Int) (hidden : Nat) :
    Except String (Qwen3VLModel Heads (List ℝ) Heads (List ℝ)) := do
  let decoder ← createModel cfg w
  return { decoder with
    imageTokenId
    zeroHidden := List.replicate hidden 0
    mropeQ := applyMrope cfg
    mropeK := applyMrope cfg }

/-! ### On text -/

theorem markAxis_length (axis : Nat) (stop : Int) (sel : List Nat) : (markAxis axis stop sel).length = sel.length :=
  List.length_mapIdx

theorem buildSelector_length (headDim : Nat) (mropeSection : List Int) :
    (buildSelector headDim mropeSection).length = headDim / 2 := by
  unfold buildSelector
  split
  · rw [markAxis_length, markAxis_length, List.length_replicate]
  · rw [List.length_replicate]

theorem axis_even (p axis : Nat) : (MropePosition.even p).axis axis = p := by
  unfold MropePosition.axis
  split <;> rfl

theorem baseFreqs_getElem? (headDim : Nat) (base : ℝ) {i : Nat} (inside : i < (headDim + 1) / 2) :
    (baseFreqs headDim base)[i]? = some (base ^ (2 * (i : ℝ) / headDim)) := by
  have cast : (do let a ← List.range ((headDim + 1) / 2); pure (a : ℝ)) = (List.range ((headDim + 1) / 2)).map Nat.cast :=
    List.flatMap_pure_eq_map _ _
  rw [baseFreqs, cast]
  simp [inside]

/-- Whatever the selector picks, the angle is that of `fast::rope` at the unscaled frequencies. -/
theorem mrope_angle (cfg : ModelConfig) (p : Nat) {i : Nat} (inside : i < cfg.headDim / 2) :
    (List.zipWith (fun axis inv => ((MropePosition.even p).axis axis : ℝ) * inv) (buildSelector cfg.headDim cfg.mropeSection)
        (buildInvFreq cfg.headDim cfg.ropeTheta))[i]? = some ((p : Int) / (baseFreqs cfg.headDim cfg.ropeTheta).getD i 1) := by
  have room : i < (cfg.headDim + 1) / 2 := by omega
  have selected : i < (buildSelector cfg.headDim cfg.mropeSection).length := by rw [buildSelector_length]; exact inside
  simp [List.getElem?_zipWith, List.getElem?_eq_getElem selected, axis_even, buildInvFreq, baseFreqs_getElem? _ _ room, room,
    div_eq_mul_inv]

theorem getD_tiled (xs : List ℝ) (half i : Nat) (len : xs.length = half) (inside : i < half) :
    (xs ++ xs).getD i 0 = xs.getD i 0 ∧ (xs ++ xs).getD (i + half) 0 = xs.getD i 0 := by
  subst len
  rw [List.getD_append _ _ _ _ inside, List.getD_append_right _ _ _ _ (Nat.le_add_left _ _), Nat.add_sub_cancel]
  exact ⟨rfl, rfl⟩

/-- A head on text turns as `fast::rope` turns it. -/
theorem rotateHead_even (cfg : ModelConfig) (p : Nat) (x : List ℝ) :
    rotateHead (cfg.headDim / 2) (mropeCosSin cfg (.even p)).1 (mropeCosSin cfg (.even p)).2 x =
      fastRope cfg.headDim (baseFreqs cfg.headDim cfg.ropeTheta) p x := by
  have angle := fun i (inside : i < cfg.headDim / 2) => mrope_angle cfg p inside
  unfold rotateHead fastRope mropeCosSin
  generalize angles : List.zipWith (fun axis inv => ((MropePosition.even p).axis axis : ℝ) * inv)
    (buildSelector cfg.headDim cfg.mropeSection) (buildInvFreq cfg.headDim cfg.ropeTheta) = freqs at angle
  have len : freqs.length = cfg.headDim / 2 := by
    rw [← angles, List.length_zipWith, buildSelector_length, buildInvFreq, List.length_map, List.length_range]
    omega
  dsimp only
  rw [List.range_add, List.map_append, List.map_map]
  congr 1
  · apply List.map_congr_left
    intro i member
    have inside := List.mem_range.mp member
    rw [(getD_tiled _ _ i (by rw [List.length_map, len]) inside).1, (getD_tiled _ _ i (by rw [List.length_map, len]) inside).1,
      if_pos inside]
    simp only [List.getD_eq_getElem?_getD, List.getElem?_map, angle i inside, Option.map_some, Option.getD_some]
    ring
  · apply List.map_congr_left
    intro i member
    have inside := List.mem_range.mp member
    have second : ¬ i + cfg.headDim / 2 < cfg.headDim / 2 := by omega
    simp only [Function.comp, Nat.add_comm (cfg.headDim / 2) i]
    rw [(getD_tiled _ _ i (by rw [List.length_map, len]) inside).2, (getD_tiled _ _ i (by rw [List.length_map, len]) inside).2,
      if_neg second, Nat.add_sub_cancel]
    simp only [List.getD_eq_getElem?_getD, List.getElem?_map, angle i inside, Option.map_some, Option.getD_some]
    ring

/-- A vision config passes the checks only with the default frequencies or the llama3 rescaling. -/
theorem computeRopeSetup_vision {cfg : ModelConfig} {rope : RopeSetup} (ok : computeRopeSetup cfg = .ok rope)
    (vision : cfg.hasVisionTower = true) (unbaked : cfg.ropeFreqFactors = none)
    (unscaled : ∀ rs, cfg.ropeScaling = some rs → rs.ropeType ≠ "llama3") :
    rope = { freqs := baseFreqs cfg.headDim cfg.ropeTheta } := by
  unfold computeRopeSetup at ok
  obtain ⟨_, valid, ok⟩ := bind_ok ok
  cases scaling : cfg.ropeScaling with
  | none =>
    simp only [unbaked, scaling] at ok
    exact (pure_ok ok).symm
  | some rs =>
    have refused : rs.ropeType ≠ "yarn" ∧ rs.ropeType ≠ "linear" := by
      constructor
      all_goals
        intro type
        simp only [validateRopeScaling, scaling, type, vision, true_or, or_true, if_true] at valid
        split at valid
        · simp at *
        · split at valid
          · cases valid
          · cases valid
    simp only [unbaked, scaling, refused.1, refused.2, unscaled rs scaling, if_false] at ok
    exact (pure_ok ok).symm

theorem createQwen3VL_textRope {cfg : ModelConfig} {w : Weights} {imageTokenId : Int} {hidden : Nat}
    {m : Qwen3VLModel Heads (List ℝ) Heads (List ℝ)} (ok : createQwen3VL cfg w imageTokenId hidden = .ok m)
    (vision : cfg.hasVisionTower = true) (unbaked : cfg.ropeFreqFactors = none)
    (unscaled : ∀ rs, cfg.ropeScaling = some rs → rs.ropeType ≠ "llama3") : m.TextRope := by
  unfold createQwen3VL createModel at ok
  obtain ⟨decoder, made, ok⟩ := bind_ok ok
  obtain ⟨rope, computed, made⟩ := bind_ok made
  obtain rfl := pure_ok made
  obtain rfl := pure_ok ok
  obtain rfl := computeRopeSetup_vision computed vision unbaked unscaled
  have same : ∀ (p : Nat) (x : Heads), applyMrope cfg (.even p) x =
      applyRope cfg.headDim { freqs := baseFreqs cfg.headDim cfg.ropeTheta } p x := by
    intro p x
    apply List.map_congr_left
    intro head _
    rw [rotateHead_even]
    simp
  exact ⟨fun p => funext (same p), fun p => funext (same p)⟩

end Mlxforge
