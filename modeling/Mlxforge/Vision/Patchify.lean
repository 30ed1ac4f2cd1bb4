import Mlxforge.Lib.Except
import Mlxforge.Lib.NdArray
import Mlxforge.Lib.Rows
import Mlxforge.Model.Mrope

/-!
An image cut into the rows that the vision tower reads: one row a patch, patches in merged-block order.
-/

namespace Mlxforge

/-- Normalization and patch sizes. -/
structure PreprocessConfig (K : Type) [Field K] where
  patchSize : Nat := 16
  temporalPatchSize : Nat := 2
  mergeSize : Nat := 2
  rescaleFactor : K := 1 / 255
  imageMean : List K := [1 / 2, 1 / 2, 1 / 2]
  imageStd : List K := [1 / 2, 1 / 2, 1 / 2]

structure Preprocessed (K : Type) where
  pixelValues : NdArray K
  gridThw : ImageGrid

/-- A decoded image, (H, W, 3). -/
structure RgbImage where
  height : Nat
  width : Nat
  pixels : NdArray UInt8
  shape : pixels.shape = [height, width, 3]

section Rows

variable {α : Type}

/-- The rows of an (H, W, C) image: channels first, a still image in all the frames of a temporal patch, both sides split
into blocks and patches, then the blocks brought to the front. -/
def patchRows (img : NdArray α) (H W C tps ps ms : Nat) : Except String (NdArray α) := do
  let gh := H / ps
  let gw := W / ps
  let img ← (img.transpose [2, 0, 1]).reshape [1, 1, 1, C, H, W]
  let img ← (img.broadcastTo [1, 1, tps, C, H, W]).reshape [1, 1, tps, C, gh / ms, ms, ps, gw / ms, ms, ps]
  (img.transpose [0, 1, 4, 7, 5, 8, 3, 2, 6, 9]).reshape [gh * gw, C * tps * ps * ps]

variable {img : NdArray α} {C H W tps mh mw ms ps : Nat}

/-- The array after the second reshape, with its axes in the final order. -/
def cutAxes (img : NdArray α) (H W C tps mh mw ms ps : Nat) : NdArray α :=
  NdArray.transpose ⟨[1, 1, tps, C, mh, ms, ps, mw, ms, ps],
    (NdArray.broadcastTo ⟨[1, 1, 1, C, H, W], (img.transpose [2, 0, 1]).flat⟩ [1, 1, tps, C, H, W]).flat⟩
    [0, 1, 4, 7, 5, 8, 3, 2, 6, 9]

theorem shape_cutAxes : (cutAxes img H W C tps mh mw ms ps).shape = [1, 1, mh, mw, ms, ms, C, tps, ps, ps] := by
  simp [cutAxes, NdArray.transpose, NdArray.dim]

/-- The channel planes. -/
theorem get_planes (shape : img.shape = [H, W, C]) {c row col : Nat} (channel : c < C) (high : row < H) (wide : col < W) :
    (NdArray.mk [1, 1, 1, C, H, W] (img.transpose [2, 0, 1]).flat).get [0, 0, 0, c, row, col] = img.get [row, col, c] := by
  have order : [2, 0, 1].map img.dim = [C, H, W] := by simp [NdArray.dim, shape]
  have inside : Inside [C, H, W] [c, row, col] := .cons channel (.cons high (.cons wide .nil))
  have plane : (img.transpose [2, 0, 1]).get [c, row, col] = _ := NdArray.get_transpose (by rwa [order])
  rw [shape] at plane
  refine Eq.trans ?_ plane
  simp only [NdArray.get, NdArray.transpose, order, ravel, List.prod_cons, List.prod_nil, Nat.zero_mul, Nat.zero_add]

/-- The order of the axes before the last permutation. -/
theorem get_permuted (flat : Nat → α) {br bc ir ic c τ y x : Nat}
    (inside : Inside [mh, mw, ms, ms, C, tps, ps, ps] [br, bc, ir, ic, c, τ, y, x]) :
    (NdArray.transpose ⟨[1, 1, tps, C, mh, ms, ps, mw, ms, ps], flat⟩ [0, 1, 4, 7, 5, 8, 3, 2, 6, 9]).get
        [0, 0, br, bc, ir, ic, c, τ, y, x] =
      flat (ravel [1, 1, tps, C, mh, ms, ps, mw, ms, ps] [0, 0, τ, c, br, ir, y, bc, ic, x]) := by
  have order : [0, 1, 4, 7, 5, 8, 3, 2, 6, 9].map (NdArray.mk [1, 1, tps, C, mh, ms, ps, mw, ms, ps] flat).dim =
      [1, 1, mh, mw, ms, ms, C, tps, ps, ps] := by simp [NdArray.dim]
  rw [NdArray.get_transpose (by rw [order]; exact .cons Nat.one_pos (.cons Nat.one_pos inside))]
  rfl

/-- A pixel of the cut image. -/
theorem get_cutAxes (shape : img.shape = [H, W, C]) (high : H = mh * ms * ps) (wide : W = mw * ms * ps)
    {br bc ir ic c τ y x : Nat} (inside : Inside [mh, mw, ms, ms, C, tps, ps, ps] [br, bc, ir, ic, c, τ, y, x]) :
    (cutAxes img H W C tps mh mw ms ps).get [0, 0, br, bc, ir, ic, c, τ, y, x] =
      img.get [(br * ms + ir) * ps + y, (bc * ms + ic) * ps + x, c] := by
  rw [cutAxes, get_permuted _ inside]
  simp only [inside_cons] at inside
  obtain ⟨hbr, hbc, hir, hic, hc, hτ, hy, hx, -⟩ := inside
  have row : (br * ms + ir) * ps + y < H := by
    rw [high]
    exact digit_lt (digit_lt hbr hir) hy
  have col : (bc * ms + ic) * ps + x < W := by
    rw [wide]
    exact digit_lt (digit_lt hbc hic) hx
  have source : Inside [1, 1, tps, C, H, W] [0, 0, τ, c, (br * ms + ir) * ps + y, (bc * ms + ic) * ps + x] :=
    .cons Nat.one_pos (.cons Nat.one_pos (.cons hτ (.cons hc (.cons row (.cons col .nil)))))
  have place : ravel [1, 1, tps, C, mh, ms, ps, mw, ms, ps] [0, 0, τ, c, br, ir, y, bc, ic, x] =
      ravel [1, 1, tps, C, H, W] [0, 0, τ, c, (br * ms + ir) * ps + y, (bc * ms + ic) * ps + x] := by
    simp only [ravel, List.prod_cons, List.prod_nil, high, wide]
    ring
  rw [place]
  refine (NdArray.get_broadcastTo source).trans ?_
  simp only [List.zipWith_cons_cons, List.zipWith_nil_left, NdArray.broadcastIndex hc, NdArray.broadcastIndex row,
    NdArray.broadcastIndex col, if_true]
  exact get_planes shape hc row col

/-- Row `((br * mw + bc) * ms + ir) * ms + ic` is the patch at row `br * ms + ir` and column `bc * ms + ic`, by channel,
frame, row and column. -/
theorem patchRows_rows (tps : Nat) (shape : img.shape = [H, W, C]) (high : H = mh * ms * ps) (wide : W = mw * ms * ps)
    (gridHeight : H / ps = mh * ms) (gridWidth : W / ps = mw * ms) (blocksHigh : mh * ms / ms = mh)
    (blocksWide : mw * ms / ms = mw) :
    ∃ out, patchRows img H W C tps ps ms = .ok out ∧ out.shape = [mh * ms * (mw * ms), C * tps * ps * ps] ∧
      ∀ br bc ir ic c τ y x, Inside [mh, mw, ms, ms, C, tps, ps, ps] [br, bc, ir, ic, c, τ, y, x] →
        out.get [ravel [mh, mw, ms, ms] [br, bc, ir, ic], ravel [C, tps, ps, ps] [c, τ, y, x]] =
          img.get [(br * ms + ir) * ps + y, (bc * ms + ic) * ps + x, c] := by
  have first : (img.transpose [2, 0, 1]).reshape [1, 1, 1, C, H, W] =
      .ok ⟨[1, 1, 1, C, H, W], (img.transpose [2, 0, 1]).flat⟩ := by
    refine NdArray.reshape_ok ?_
    simp [NdArray.transpose, NdArray.dim, shape]
  have second : ∀ six : NdArray α, (six.broadcastTo [1, 1, tps, C, H, W]).reshape [1, 1, tps, C, mh, ms, ps, mw, ms, ps] =
      .ok ⟨[1, 1, tps, C, mh, ms, ps, mw, ms, ps], (six.broadcastTo [1, 1, tps, C, H, W]).flat⟩ := by
    intro six
    refine NdArray.reshape_ok ?_
    simp only [NdArray.broadcastTo, List.prod_cons, List.prod_nil, high, wide]
    ring
  have third : (cutAxes img H W C tps mh mw ms ps).reshape [mh * ms * (mw * ms), C * tps * ps * ps] =
      .ok ⟨[mh * ms * (mw * ms), C * tps * ps * ps], (cutAxes img H W C tps mh mw ms ps).flat⟩ := by
    refine NdArray.reshape_ok ?_
    rw [shape_cutAxes]
    simp only [List.prod_cons, List.prod_nil]
    ring
  refine ⟨⟨[mh * ms * (mw * ms), C * tps * ps * ps], (cutAxes img H W C tps mh mw ms ps).flat⟩, ?_, rfl, ?_⟩
  · simp only [patchRows, gridHeight, gridWidth, blocksHigh, blocksWide, first, ok_bind, second]
    rw [cutAxes] at third
    exact third
  · intro br bc ir ic c τ y x inside
    rw [← get_cutAxes shape high wide inside]
    refine congrArg (cutAxes img H W C tps mh mw ms ps).flat ?_
    rw [shape_cutAxes]
    simp only [ravel, List.prod_cons, List.prod_nil]
    ring

end Rows

variable {K : Type} [Field K]

/-- The constants of the channels, as an array that broadcasts over the image. -/
def channelConstants (values : List K) (channels : Nat) : NdArray K := ⟨[1, 1, channels], fun n => values.getD n 0⟩

/-- Rescaled and normalized by channel. -/
def PreprocessConfig.normalize (cfg : PreprocessConfig K) (image : NdArray UInt8) : NdArray K :=
  let img := image.map fun v => (v.toNat : K) * cfg.rescaleFactor
  (img.zip (· - ·) (channelConstants cfg.imageMean (image.dim 2))).zip (· / ·) (channelConstants cfg.imageStd (image.dim 2))

def patchifyImage (image : NdArray UInt8) (cfg : PreprocessConfig K) : Except String (Preprocessed K) := do
  let H := image.dim 0
  let W := image.dim 1
  let C := image.dim 2
  let ps := cfg.patchSize
  let factor := ps * cfg.mergeSize
  if H % factor ≠ 0 ∨ W % factor ≠ 0 then
    throw ("patchify_image: image dimensions must be a multiple of " ++
      "patch_size*merge_size (resize is a separate stage)")
  let pixelValues ← patchRows (cfg.normalize image) H W C cfg.temporalPatchSize ps cfg.mergeSize
  return ⟨pixelValues, ⟨1, H / ps, W / ps⟩⟩

/-- One channel of one pixel, normalized. -/
def PreprocessConfig.pixelValue (cfg : PreprocessConfig K) (image : RgbImage) (y x channel : Nat) : K :=
  (((image.pixels.get [y, x, channel]).toNat : K) * cfg.rescaleFactor - cfg.imageMean.getD channel 0) /
    cfg.imageStd.getD channel 0

/-- The normalized image, by pixel and channel. -/
theorem get_normalized (cfg : PreprocessConfig K) (image : RgbImage) {y x channel : Nat} (row : y < image.height)
    (col : x < image.width) (below : channel < 3) :
    (cfg.normalize image.pixels).get [y, x, channel] = cfg.pixelValue image y x channel := by
  have inside : Inside [image.height, image.width, 3] [y, x, channel] := .cons row (.cons col (.cons below .nil))
  have shape := image.shape
  rw [PreprocessConfig.normalize, NdArray.get_zip (by simpa [NdArray.zip, NdArray.map, shape] using inside),
    NdArray.get_zip (by simpa [NdArray.map, shape] using inside), NdArray.get_map]
  simp [PreprocessConfig.pixelValue, channelConstants, NdArray.get, NdArray.dim, shape, ravel]

/-- The patch grid of an image. -/
def PreprocessConfig.grid (cfg : PreprocessConfig K) (image : RgbImage) : ImageGrid :=
  ⟨1, image.height / cfg.patchSize, image.width / cfg.patchSize⟩

/-- Both sides are multiples of `patchSize * mergeSize`. -/
def PreprocessConfig.Aligned (cfg : PreprocessConfig K) (image : RgbImage) : Prop :=
  cfg.patchSize * cfg.mergeSize ∣ image.height ∧ cfg.patchSize * cfg.mergeSize ∣ image.width

/-- The sides of an aligned image in blocks, patches and pixels; a patch size of zero leaves an empty image. -/
theorem aligned_side {side ps ms : Nat} (aligned : ps * ms ∣ side) :
    side = side / ps / ms * ms * ps ∧ side / ps = side / ps / ms * ms := by
  have blocks := Nat.div_mul_cancel (Nat.dvd_div_of_mul_dvd aligned)
  have patches := Nat.div_mul_cancel ((Dvd.intro _ rfl).trans aligned)
  exact ⟨by rw [blocks, patches], blocks.symm⟩

/-- The rows of an aligned image. -/
theorem patchifyImage_rows {cfg : PreprocessConfig K} {image : RgbImage} (aligned : cfg.Aligned image) :
    ∃ out, patchifyImage image.pixels cfg = .ok ⟨out, cfg.grid image⟩ ∧
      out.shape = [(cfg.grid image).h * (cfg.grid image).w, 3 * cfg.temporalPatchSize * cfg.patchSize * cfg.patchSize] ∧
      ∀ br bc ir ic c τ y x, Inside [(cfg.grid image).h / cfg.mergeSize, (cfg.grid image).w / cfg.mergeSize, cfg.mergeSize,
          cfg.mergeSize, 3, cfg.temporalPatchSize, cfg.patchSize, cfg.patchSize] [br, bc, ir, ic, c, τ, y, x] →
        out.get
            [ravel [(cfg.grid image).h / cfg.mergeSize, (cfg.grid image).w / cfg.mergeSize, cfg.mergeSize, cfg.mergeSize]
                [br, bc, ir, ic],
              ravel [3, cfg.temporalPatchSize, cfg.patchSize, cfg.patchSize] [c, τ, y, x]] =
          cfg.pixelValue image ((br * cfg.mergeSize + ir) * cfg.patchSize + y) ((bc * cfg.mergeSize + ic) * cfg.patchSize + x)
            c := by
  obtain ⟨high, gridHeight⟩ := aligned_side aligned.1
  obtain ⟨wide, gridWidth⟩ := aligned_side aligned.2
  obtain ⟨out, run, shape, rows⟩ := patchRows_rows cfg.temporalPatchSize
    (show (cfg.normalize image.pixels).shape = [image.height, image.width, 3] from image.shape) high wide gridHeight gridWidth
    (by rw [← gridHeight]) (by rw [← gridWidth])
  refine ⟨out, ?_, ?_, ?_⟩
  · have fits : ¬(image.height % (cfg.patchSize * cfg.mergeSize) ≠ 0 ∨
        image.width % (cfg.patchSize * cfg.mergeSize) ≠ 0) := by
      simp [Nat.mod_eq_zero_of_dvd aligned.1, Nat.mod_eq_zero_of_dvd aligned.2]
    simp only [patchifyImage, NdArray.dim, image.shape, List.getD_cons_zero, List.getD_cons_succ, fits, if_false]
    rw [run]
    rfl
  · rw [shape, ← gridHeight, ← gridWidth]
    rfl
  · intro br bc ir ic c τ y x inside
    rw [← get_normalized]
    · exact rows br bc ir ic c τ y x inside
    all_goals
      simp only [inside_cons] at inside
      obtain ⟨hbr, hbc, hir, hic, hc, -, hy, hx, -⟩ := inside
    · rw [high]
      exact digit_lt (digit_lt hbr hir) hy
    · rw [wide]
      exact digit_lt (digit_lt hbc hic) hx
    · exact hc

end Mlxforge
