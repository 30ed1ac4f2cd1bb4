import Mlxforge.Vision.Preprocess

/-!
The pixel budget of `smart_resize`. Its square roots are compared with whole numbers only, so every comparison is one of
integers.
-/

namespace Mlxforge

variable {height width factor minPixels maxPixels : ℤ}

section
variable (tall : 0 < height) (wide : 0 < width) (positive : 0 < factor)
include tall wide positive

/-- Scaling down to `maxPixels` leaves room for `k` factors exactly if the squares say so. -/
theorem le_shrunk_iff (some : 0 < maxPixels) {k : ℤ} (natural : 0 ≤ k) :
    k ≤ ⌊(height : ℝ) / √((height : ℝ) * width / maxPixels) / factor⌋ ↔
      width * (k * factor) ^ 2 ≤ height * maxPixels := by
  have h : (0 : ℝ) < height := by exact_mod_cast tall
  have w : (0 : ℝ) < width := by exact_mod_cast wide
  have f : (0 : ℝ) < factor := by exact_mod_cast positive
  have m : (0 : ℝ) < maxPixels := by exact_mod_cast some
  have n : (0 : ℝ) ≤ k := by exact_mod_cast natural
  have beta : 0 < √((height : ℝ) * width / maxPixels) := Real.sqrt_pos.mpr (by positivity)
  rw [Int.le_floor, le_div_iff₀ f, le_div_iff₀ beta, ← pow_le_pow_iff_left₀ (by positivity) h.le (two_ne_zero), mul_pow,
    Real.sq_sqrt (by positivity), mul_div_assoc', div_le_iff₀ m]
  have left : ((k : ℝ) * factor) ^ 2 * (height * width) = height * (width * (k * factor) ^ 2) := by ring
  have right : (height : ℝ) ^ 2 * maxPixels = height * (height * maxPixels) := by ring
  rw [left, right, mul_le_mul_iff_right₀ h]
  exact_mod_cast Iff.rfl

/-- So does scaling up to `minPixels`. -/
theorem grown_le_iff (some : 0 < minPixels) {k : ℤ} (natural : 0 ≤ k) :
    ⌈(height : ℝ) * √((minPixels : ℝ) / ((height : ℝ) * width)) / factor⌉ ≤ k ↔
      height * minPixels ≤ width * (k * factor) ^ 2 := by
  have h : (0 : ℝ) < height := by exact_mod_cast tall
  have w : (0 : ℝ) < width := by exact_mod_cast wide
  have f : (0 : ℝ) < factor := by exact_mod_cast positive
  have m : (0 : ℝ) < minPixels := by exact_mod_cast some
  have n : (0 : ℝ) ≤ k := by exact_mod_cast natural
  rw [Int.ceil_le, div_le_iff₀ f, ← pow_le_pow_iff_left₀ (by positivity) (by positivity) (two_ne_zero), mul_pow,
    Real.sq_sqrt (by positivity), mul_div_assoc', div_le_iff₀ (by positivity)]
  have left : (height : ℝ) ^ 2 * minPixels = height * (height * minPixels) := by ring
  have right : ((k : ℝ) * factor) ^ 2 * (height * width) = height * (width * (k * factor) ^ 2) := by ring
  rw [left, right, mul_le_mul_iff_right₀ h]
  exact_mod_cast Iff.rfl

end

/-! ### The sides -/

/-- A side that is `factor` times `k`, or `factor` where `k` is less than one. -/
theorem clamped_eq (positive : 0 < factor) (k : ℤ) : max factor (k * factor) = max 1 k * factor := by
  rw [max_mul_of_nonneg _ _ positive.le, one_mul]

theorem dvd_clamped (positive : 0 < factor) (k : ℤ) : factor ∣ max factor (k * factor) := by
  rw [clamped_eq positive]
  exact Dvd.intro_left _ rfl

theorem mul_swap_sides (height width maxPixels : ℤ) : √((height : ℝ) * width / maxPixels) = √((width : ℝ) * height / maxPixels) := by
  rw [mul_comm (height : ℝ)]

/-- The image scaled down to `maxPixels` is at least `factor` high; otherwise it is not wider than the blocks of `factor`
squared that `maxPixels` has room for. -/
def StripFits (height width factor maxPixels : ℤ) : Prop :=
  height * maxPixels < width * factor ^ 2 →
    width * maxPixels < height * ((maxPixels / factor ^ 2 + 1) * factor) ^ 2

/-- Some grid of whole factors covers the image scaled up to `minPixels` and has at most `maxPixels`. -/
def GridFits (height width factor minPixels maxPixels : ℤ) : Prop :=
  ∃ a b : ℤ, 0 ≤ a ∧ 0 ≤ b ∧ height * minPixels ≤ width * (a * factor) ^ 2 ∧
    width * minPixels ≤ height * (b * factor) ^ 2 ∧ a * factor * (b * factor) ≤ maxPixels

section
variable (tall : 0 < height) (wide : 0 < width) (positive : 0 < factor)
include tall wide positive

/-- Both sides scaled down: their product keeps to `maxPixels` unless one of them had to be lengthened too much. -/
theorem shrunk_product_iff (room : factor ^ 2 ≤ maxPixels) :
    max factor (⌊(height : ℝ) / √((height : ℝ) * width / maxPixels) / factor⌋ * factor) *
        max factor (⌊(width : ℝ) / √((height : ℝ) * width / maxPixels) / factor⌋ * factor) ≤ maxPixels ↔
      StripFits height width factor maxPixels ∧ StripFits width height factor maxPixels := by
  have square : 0 < factor ^ 2 := by positivity
  have some : 0 < maxPixels := lt_of_lt_of_le square room
  have p_iff := fun k => le_shrunk_iff tall wide positive some (k := k)
  have q_iff := fun k => le_shrunk_iff wide tall positive some (k := k)
  rw [← mul_swap_sides height width maxPixels] at q_iff
  generalize ⌊(height : ℝ) / √((height : ℝ) * width / maxPixels) / factor⌋ = p at p_iff ⊢
  generalize ⌊(width : ℝ) / √((height : ℝ) * width / maxPixels) / factor⌋ = q at q_iff ⊢
  have blocks : 1 ≤ maxPixels / factor ^ 2 := (Int.le_ediv_iff_mul_le square).mpr (by rw [one_mul]; exact room)
  have left : StripFits height width factor maxPixels ↔ 1 ≤ p ∨ q ≤ maxPixels / factor ^ 2 := by
    have one := p_iff 1 (by decide)
    have more := q_iff (maxPixels / factor ^ 2 + 1) (by omega)
    rw [one_mul] at one
    rw [StripFits, ← not_le, ← one, ← not_le, ← more]
    omega
  have right : StripFits width height factor maxPixels ↔ 1 ≤ q ∨ p ≤ maxPixels / factor ^ 2 := by
    have one := q_iff 1 (by decide)
    have more := p_iff (maxPixels / factor ^ 2 + 1) (by omega)
    rw [one_mul] at one
    rw [StripFits, ← not_le, ← one, ← not_le, ← more]
    omega
  have strip : ∀ k, factor * (k * factor) ≤ maxPixels ↔ k ≤ maxPixels / factor ^ 2 := by
    intro k
    rw [Int.le_ediv_iff_mul_le square, show k * factor ^ 2 = factor * (k * factor) by ring]
  rw [clamped_eq positive, clamped_eq positive, left, right]
  rcases lt_or_ge p 1 with short | high
  · rw [max_eq_left short.le, one_mul]
    rcases lt_or_ge q 1 with narrow | broad
    · rw [max_eq_left narrow.le, strip 1]
      omega
    · rw [max_eq_right broad, strip q]
      omega
  · rw [max_eq_right high]
    rcases lt_or_ge q 1 with narrow | broad
    · rw [max_eq_left narrow.le, one_mul, mul_comm, strip p]
      omega
    · rw [max_eq_right broad]
      -- each side keeps to the shape of the image, so their product keeps to the budget
      have one := (p_iff p (by omega)).mp le_rfl
      have other := (q_iff q (by omega)).mp le_rfl
      have area : 0 < height * width := mul_pos tall wide
      have squares : (p * factor * (q * factor)) ^ 2 ≤ maxPixels ^ 2 := by
        refine le_of_mul_le_mul_left ?_ area
        calc height * width * (p * factor * (q * factor)) ^ 2
            = width * (p * factor) ^ 2 * (height * (q * factor) ^ 2) := by ring
          _ ≤ height * maxPixels * (width * maxPixels) := by
              apply mul_le_mul one other <;> positivity
          _ = height * width * maxPixels ^ 2 := by ring
      have within := abs_le_of_sq_le_sq squares some.le
      exact ⟨fun _ => by omega, fun _ => (le_abs_self _).trans within⟩

/-- Both sides scaled up: the smallest grid that covers the image is within the budget if any is. -/
theorem grown_product_iff (some : 0 < minPixels) :
    ⌈(height : ℝ) * √((minPixels : ℝ) / ((height : ℝ) * width)) / factor⌉ * factor *
        (⌈(width : ℝ) * √((minPixels : ℝ) / ((height : ℝ) * width)) / factor⌉ * factor) ≤ maxPixels ↔
      GridFits height width factor minPixels maxPixels := by
  have a_iff := fun k => grown_le_iff tall wide positive some (k := k)
  have b_iff := fun k => grown_le_iff wide tall positive some (k := k)
  rw [mul_comm (width : ℝ) height] at b_iff
  have a_nonneg : 0 ≤ ⌈(height : ℝ) * √((minPixels : ℝ) / ((height : ℝ) * width)) / factor⌉ := Int.ceil_nonneg (by positivity)
  have b_nonneg : 0 ≤ ⌈(width : ℝ) * √((minPixels : ℝ) / ((height : ℝ) * width)) / factor⌉ := Int.ceil_nonneg (by positivity)
  generalize ⌈(height : ℝ) * √((minPixels : ℝ) / ((height : ℝ) * width)) / factor⌉ = a at a_iff a_nonneg ⊢
  generalize ⌈(width : ℝ) * √((minPixels : ℝ) / ((height : ℝ) * width)) / factor⌉ = b at b_iff b_nonneg ⊢
  constructor
  · intro within
    exact ⟨a, b, a_nonneg, b_nonneg, (a_iff a a_nonneg).mp le_rfl, (b_iff b b_nonneg).mp le_rfl, within⟩
  · intro fits
    obtain ⟨a', b', a'_nonneg, b'_nonneg, covers, covers', within⟩ := fits
    have lower := (a_iff a' a'_nonneg).mpr covers
    have lower' := (b_iff b' b'_nonneg).mpr covers'
    refine le_trans ?_ within
    apply mul_le_mul (mul_le_mul_of_nonneg_right lower positive.le) (mul_le_mul_of_nonneg_right lower' positive.le) <;>
      positivity

end

/-! ### The budget -/

/-- Both sides are positive multiples of `factor`, their product is at most `maxPixels`, and a size that is within both
limits once rounded is only rounded. -/
structure RespectsBudget (height width factor minPixels maxPixels : ℤ) : Prop where
  hBar : 0 < (smartResize height width factor minPixels maxPixels).1 ∧
    factor ∣ (smartResize height width factor minPixels maxPixels).1
  wBar : 0 < (smartResize height width factor minPixels maxPixels).2 ∧
    factor ∣ (smartResize height width factor minPixels maxPixels).2
  product : (smartResize height width factor minPixels maxPixels).1 *
    (smartResize height width factor minPixels maxPixels).2 ≤ maxPixels
  rounded : minPixels ≤ roundBy factor height * roundBy factor width →
    roundBy factor height * roundBy factor width ≤ maxPixels →
    smartResize height width factor minPixels maxPixels = (roundBy factor height, roundBy factor width)

/-- When the product keeps to the budget. -/
def WithinBudget (height width factor minPixels maxPixels : ℤ) : Prop :=
  (maxPixels < roundBy factor height * roundBy factor width →
    StripFits height width factor maxPixels ∧ StripFits width height factor maxPixels) ∧
  (roundBy factor height * roundBy factor width < minPixels → GridFits height width factor minPixels maxPixels)

theorem roundBy_nonneg (positive : 0 < factor) {v : ℤ} (natural : 0 ≤ v) : 0 ≤ roundBy factor v := by
  have quotient : (0 : ℝ) ≤ (v : ℝ) / factor := by
    have top : (0 : ℝ) ≤ v := by exact_mod_cast natural
    have bottom : (0 : ℝ) < factor := by exact_mod_cast positive
    positivity
  have floor : 0 ≤ ⌊(v : ℝ) / factor + 1 / 2⌋ := Int.floor_nonneg.mpr (by linarith)
  rw [roundBy, lround, if_pos quotient]
  exact mul_nonneg floor positive.le

theorem grown_pos (tall : 0 < height) (wide : 0 < width) (positive : 0 < factor) (some : 0 < minPixels) :
    0 < ⌈(height : ℝ) * √((minPixels : ℝ) / ((height : ℝ) * width)) / factor⌉ * factor := by
  have h : (0 : ℝ) < height := by exact_mod_cast tall
  have w : (0 : ℝ) < width := by exact_mod_cast wide
  have f : (0 : ℝ) < factor := by exact_mod_cast positive
  have m : (0 : ℝ) < minPixels := by exact_mod_cast some
  have root : 0 < √((minPixels : ℝ) / ((height : ℝ) * width)) := Real.sqrt_pos.mpr (by positivity)
  exact mul_pos (Int.ceil_pos.mpr (by positivity)) positive

/-- The budget is kept exactly if the sides are not rounded up or lengthened beyond it. -/
theorem smartResize_respects_iff (tall : 1 ≤ height) (wide : 1 ≤ width) (positive : 1 ≤ factor) (some : 0 < minPixels)
    (ordered : minPixels ≤ maxPixels) (room : factor ^ 2 ≤ maxPixels) :
    RespectsBudget height width factor minPixels maxPixels ↔ WithinBudget height width factor minPixels maxPixels := by
  have tall : 0 < height := by omega
  have wide : 0 < width := by omega
  have positive : 0 < factor := by omega
  by_cases large : maxPixels < roundBy factor height * roundBy factor width
  · have product := shrunk_product_iff tall wide positive room
    have resized : smartResize height width factor minPixels maxPixels = _ := if_pos large
    constructor
    · intro respects
      have within := respects.product
      rw [resized] at within
      exact ⟨fun _ => product.mp within, fun small => absurd small (by omega)⟩
    · intro within
      refine ⟨?_, ?_, ?_, fun _ small => absurd small (by omega)⟩
      · rw [resized]
        exact ⟨lt_max_of_lt_left positive, dvd_clamped positive _⟩
      · rw [resized]
        exact ⟨lt_max_of_lt_left positive, dvd_clamped positive _⟩
      · rw [resized]
        exact product.mpr (within.1 large)
  · by_cases small : roundBy factor height * roundBy factor width < minPixels
    · have product : _ ↔ GridFits height width factor minPixels maxPixels := grown_product_iff tall wide positive some
      have resized : smartResize height width factor minPixels maxPixels = _ := (if_neg large).trans (if_pos small)
      constructor
      · intro respects
        have within := respects.product
        rw [resized] at within
        exact ⟨fun above => absurd above large, fun _ => product.mp within⟩
      · intro within
        refine ⟨?_, ?_, ?_, fun above => absurd above (by omega)⟩
        · rw [resized]
          exact ⟨grown_pos tall wide positive some, Dvd.intro_left _ rfl⟩
        · rw [resized]
          have pos := grown_pos wide tall positive some
          rw [mul_comm (width : ℝ) height] at pos
          exact ⟨pos, Dvd.intro_left _ rfl⟩
        · rw [resized]
          exact product.mpr (within.2 small)
    · have resized : smartResize height width factor minPixels maxPixels = _ := (if_neg large).trans (if_neg small)
      have hBar := roundBy_nonneg positive tall.le
      have wBar := roundBy_nonneg positive wide.le
      have area : 0 < roundBy factor height * roundBy factor width := by omega
      refine ⟨fun _ => ⟨fun above => absurd above large, fun below => absurd below small⟩, fun _ => ?_⟩
      refine ⟨?_, ?_, ?_, fun _ _ => resized⟩
      · rw [resized]
        exact ⟨pos_of_mul_pos_left area wBar, Dvd.intro_left _ rfl⟩
      · rw [resized]
        exact ⟨pos_of_mul_pos_right area hBar, Dvd.intro_left _ rfl⟩
      · rw [resized]
        exact not_lt.mp large

theorem roundBy_eq {v k : ℤ} (positive : 0 < factor) (natural : 0 ≤ v) (lower : 2 * k * factor ≤ 2 * v + factor)
    (upper : 2 * v + factor < 2 * (k + 1) * factor) : roundBy factor v = k * factor := by
  have f : (0 : ℝ) < factor := by exact_mod_cast positive
  have top : (0 : ℝ) ≤ v := by exact_mod_cast natural
  have low : 2 * (k : ℝ) * factor ≤ 2 * v + factor := by exact_mod_cast lower
  have high : 2 * (v : ℝ) + factor < 2 * (k + 1) * factor := by exact_mod_cast upper
  have floor : ⌊(v : ℝ) / factor + 1 / 2⌋ = k := by
    have sum : (v : ℝ) / factor + 1 / 2 = (2 * v + factor) / (2 * factor) := by field_simp
    rw [Int.floor_eq_iff, sum, le_div_iff₀ (by positivity), div_lt_iff₀ (by positivity)]
    constructor <;> linarith
  rw [roundBy, lround, if_pos (by positivity), Nat.cast_ofNat, floor]

/-- 64 by 64 pixels are scaled up to 256 by 256. -/
theorem smartResize_respects_square : RespectsBudget 64 64 32 65536 16777216 := by
  have side : roundBy 32 ((64 : ℤ) : ℝ) = 64 := roundBy_eq (k := 2) (by decide) (by decide) (by decide) (by decide)
  refine (smartResize_respects_iff (by decide) (by decide) (by decide) (by decide) (by decide) (by decide)).mpr ⟨?_, ?_⟩
  · rw [side]
    intro large
    exact absurd large (by decide)
  · intro _
    exact ⟨8, 8, by decide, by decide, by decide, by decide, by decide⟩

/-- With the default limits an image 16 high and 2^20 wide is resized to twice the most pixels allowed: scaling it down would
leave no factor of height. -/
theorem smartResize_exceeds : ¬RespectsBudget 16 1048576 32 65536 16777216 := by
  intro respects
  have height : roundBy 32 ((16 : ℤ) : ℝ) = 32 := roundBy_eq (k := 1) (by decide) (by decide) (by decide) (by decide)
  have width : roundBy 32 ((1048576 : ℤ) : ℝ) = 1048576 :=
    roundBy_eq (k := 32768) (by decide) (by decide) (by decide) (by decide)
  have large : (16777216 : ℤ) < roundBy 32 ((16 : ℤ) : ℝ) * roundBy 32 ((1048576 : ℤ) : ℝ) := by rw [height, width]; decide
  have product := respects.product
  have resized : smartResize 16 1048576 32 65536 16777216 = _ := if_pos large
  rw [resized] at product
  have fits := (shrunk_product_iff (by decide) (by decide) (by decide) (by decide)).mp product
  exact absurd (fits.1 (by decide)) (by decide)

end Mlxforge
