import Mathlib.Analysis.Real.Sqrt
import Mathlib.Tactic

/-!
Image preprocessing for the vision tower, in exact arithmetic.
-/

namespace Mlxforge

/-- `std::lround`: halves go away from zero. -/
noncomputable def lround (x : ℝ) : ℤ := if 0 ≤ x then ⌊x + 1 / (2 : ℕ)⌋ else ⌈x - 1 / (2 : ℕ)⌉

noncomputable def roundBy (factor : ℤ) (v : ℝ) : ℤ := lround (v / factor) * factor

/-- The sides (height, width) an image is resized to. -/
noncomputable def smartResize (height width factor minPixels maxPixels : ℤ) : ℤ × ℤ :=
  let hBar := roundBy factor height
  let wBar := roundBy factor width
  if maxPixels < hBar * wBar then
    let beta := √((height : ℝ) * width / maxPixels)
    (max factor (⌊(height : ℝ) / beta / factor⌋ * factor), max factor (⌊(width : ℝ) / beta / factor⌋ * factor))
  else if hBar * wBar < minPixels then
    let beta := √((minPixels : ℝ) / ((height : ℝ) * width))
    (⌈(height : ℝ) * beta / factor⌉ * factor, ⌈(width : ℝ) * beta / factor⌉ * factor)
  else (hBar, wBar)

end Mlxforge
