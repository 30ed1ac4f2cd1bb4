import Mlxforge.Json.Value
import Mlxforge.Lib.Markers
import Mlxforge.Vision.Patchify
import Mlxforge.Vision.SmartResize
import Mathlib.Data.List.TakeWhile

/-!
The placeholder tokens of an image: their number, told from the size in the header, and the features of the preprocessed
image that take their places.
-/

namespace Mlxforge

variable {K : Type} [Field K] {R : Type}

/-! ### Preprocessing -/

/-- The image codec and the resampling, both of stb. -/
structure ImageLib where
  /-- Height and width, from the header. -/
  imageInfo : Bytes → Except Exn (Nat × Nat)
  decodeImage : Bytes → Except Exn RgbImage
  resample : RgbImage → (th tw : Nat) → Nat → UInt8

/-- `min_pixels`, which `PreprocessConfig::from` leaves at its default. -/
def minPixels : ℤ := 256 * 256

def maxPixels : ℤ := 4096 * 4096

namespace PreprocessConfig

variable (cfg : PreprocessConfig K)

noncomputable def resizedSides (height width : ℤ) : ℤ × ℤ :=
  smartResize height width (cfg.patchSize * cfg.mergeSize) minPixels maxPixels

noncomputable def imageTokenCount (height width : ℤ) : ℤ :=
  let hw := cfg.resizedSides height width
  let gh := hw.1 / cfg.patchSize
  let gw := hw.2 / cfg.patchSize
  gh * gw / (cfg.mergeSize * cfg.mergeSize)

end PreprocessConfig

def resizeRgb (lib : ImageLib) (image : RgbImage) (th tw : Nat) : RgbImage where
  height := th
  width := tw
  pixels := ⟨[th, tw, 3], lib.resample image th tw⟩
  shape := rfl

noncomputable def preprocessImage (lib : ImageLib) (image : RgbImage) (cfg : PreprocessConfig K) :
    Except String (Preprocessed K) :=
  let hw := cfg.resizedSides image.height image.width
  let resized := if hw = (↑image.height, ↑image.width) then image else resizeRgb lib image hw.1.toNat hw.2.toNat
  patchifyImage resized.pixels cfg

/-! ### The features of a prompt -/

/-- The rows of the image tokens are taken from the features in order, run by run; the others are kept. -/
def mergeImageFeatures (imageTokenId : Int) : (ids : List Int) → (tokenEmbeds imageFeatures : List R) → List R
  | [], _, _ => []
  | id :: ids, embeds, features =>
    let isImage := id == imageTokenId
    let run := (ids.takeWhile fun next => (next == imageTokenId) == isImage).length + 1
    if isImage then
      features.take run ++ mergeImageFeatures imageTokenId ((id :: ids).drop run) (embeds.drop run) (features.drop run)
    else embeds.take run ++ mergeImageFeatures imageTokenId ((id :: ids).drop run) (embeds.drop run) features
termination_by ids => ids.length
decreasing_by
  all_goals simp only [List.length_cons, List.length_drop]
  all_goals omega

/-- `prepare_multimodal_prefill`: the features of the images one after another, and their patch grids. -/
noncomputable def prepareMultimodalPrefill (lib : ImageLib) (cfg : PreprocessConfig K) (vit : Preprocessed K → List R)
    (imageTokenId : Int) (promptIds : List Int) (images : List RgbImage) : Except String (List R × List ImageGrid) := do
  if images = [] then throw "prepare_multimodal_prefill: no images"
  let pres ← images.mapM fun rgb => preprocessImage lib rgb cfg
  let mergedTotal := (pres.map fun pre =>
    pre.gridThw.t * pre.gridThw.h * pre.gridThw.w / (cfg.mergeSize * cfg.mergeSize)).sum
  let pads := promptIds.count imageTokenId
  if pads ≠ mergedTotal then
    throw ("multimodal prompt has " ++ toString pads ++ " image placeholder(s) but the image(s) yield " ++
      toString mergedTotal)
  return (pres.flatMap vit, pres.map (·.gridThw))

/-! ### Sides and counts -/

theorem lround_nonneg {x : ℝ} (natural : 0 ≤ x) : 0 ≤ lround x := by
  rw [lround, if_pos natural]
  exact Int.floor_nonneg.mpr (by positivity)

/-- Both sides come out as multiples of the factor. -/
theorem smartResize_sides (minPixels maxPixels : ℤ) {height width factor : ℤ} (tall : 0 ≤ height) (wide : 0 ≤ width)
    (natural : 0 ≤ factor) :
    (factor ∣ (smartResize height width factor minPixels maxPixels).1 ∧
      0 ≤ (smartResize height width factor minPixels maxPixels).1) ∧
    factor ∣ (smartResize height width factor minPixels maxPixels).2 ∧
      0 ≤ (smartResize height width factor minPixels maxPixels).2 := by
  have h : (0 : ℝ) ≤ height := by exact_mod_cast tall
  have w : (0 : ℝ) ≤ width := by exact_mod_cast wide
  have f : (0 : ℝ) ≤ factor := by exact_mod_cast natural
  unfold smartResize
  dsimp only
  split_ifs
  · have longer (k : ℤ) : factor ∣ max factor (k * factor) := by
      rcases max_choice factor (k * factor) with side | side <;> rw [side]
      exact Dvd.intro_left k rfl
    exact ⟨⟨longer _, natural.trans (le_max_left _ _)⟩, longer _, natural.trans (le_max_left _ _)⟩
  · refine ⟨⟨Dvd.intro_left _ rfl, mul_nonneg ?_ natural⟩, Dvd.intro_left _ rfl, mul_nonneg ?_ natural⟩
    all_goals exact Int.ceil_nonneg (by positivity)
  · refine ⟨⟨Dvd.intro_left _ rfl, mul_nonneg ?_ natural⟩, Dvd.intro_left _ rfl, mul_nonneg ?_ natural⟩
    all_goals exact lround_nonneg (by positivity)

namespace PreprocessConfig

/-- The tokens of an image of the given size. -/
noncomputable def mergedPatches (cfg : PreprocessConfig K) (height width : Nat) : Nat :=
  ImageGrid.tokens cfg.mergeSize ⟨1, (cfg.resizedSides height width).1.toNat / cfg.patchSize,
    (cfg.resizedSides height width).2.toNat / cfg.patchSize⟩

variable (cfg : PreprocessConfig K)

theorem resizedSides_aligned (height width : Nat) :
    (cfg.patchSize * cfg.mergeSize ∣ (cfg.resizedSides height width).1.toNat ∧ 0 ≤ (cfg.resizedSides height width).1) ∧
    cfg.patchSize * cfg.mergeSize ∣ (cfg.resizedSides height width).2.toNat ∧ 0 ≤ (cfg.resizedSides height width).2 := by
  obtain ⟨⟨high, top⟩, across, left⟩ : (_ ∣ (cfg.resizedSides height width).1 ∧ 0 ≤ (cfg.resizedSides height width).1) ∧
      _ ∣ (cfg.resizedSides height width).2 ∧ 0 ≤ (cfg.resizedSides height width).2 :=
    smartResize_sides minPixels maxPixels (by positivity) (by positivity) (by positivity)
  refine ⟨⟨?_, top⟩, ?_, left⟩
  · rw [← Int.natCast_dvd_natCast, Int.toNat_of_nonneg top, Nat.cast_mul]
    exact high
  · rw [← Int.natCast_dvd_natCast, Int.toNat_of_nonneg left, Nat.cast_mul]
    exact across

theorem mergedPatches_eq (height width : Nat) : cfg.mergedPatches height width =
    1 * ((cfg.resizedSides height width).1.toNat / cfg.patchSize) *
      ((cfg.resizedSides height width).2.toNat / cfg.patchSize) / (cfg.mergeSize * cfg.mergeSize) := by
  obtain ⟨⟨high, _⟩, across, _⟩ := cfg.resizedSides_aligned height width
  rw [mergedPatches, ImageGrid.tokens, Nat.one_mul, Nat.one_mul,
    Nat.mul_div_mul_comm (Nat.dvd_div_of_mul_dvd high) (Nat.dvd_div_of_mul_dvd across)]

/-- The header's size tells the number of tokens. -/
theorem imageTokenCount_eq (height width : Nat) : cfg.imageTokenCount height width = cfg.mergedPatches height width := by
  obtain ⟨⟨_, top⟩, _, left⟩ := cfg.resizedSides_aligned height width
  rw [mergedPatches_eq, imageTokenCount]
  simp only [Nat.one_mul, Nat.cast_mul, Int.natCast_ediv, Int.toNat_of_nonneg top, Int.toNat_of_nonneg left]

end PreprocessConfig

theorem preprocessImage_ok (lib : ImageLib) (image : RgbImage) (cfg : PreprocessConfig K) :
    ∃ pre, preprocessImage lib image cfg = .ok pre ∧
      pre.gridThw = ⟨1, (cfg.resizedSides image.height image.width).1.toNat / cfg.patchSize,
        (cfg.resizedSides image.height image.width).2.toNat / cfg.patchSize⟩ := by
  obtain ⟨⟨high, _⟩, across, _⟩ := cfg.resizedSides_aligned image.height image.width
  unfold preprocessImage
  dsimp only
  split_ifs with same
  · rw [same] at high across
    have aligned : cfg.Aligned image := ⟨high, across⟩
    obtain ⟨out, run, _⟩ := patchifyImage_rows aligned
    exact ⟨_, run, by rw [same]; rfl⟩
  · have aligned : cfg.Aligned (resizeRgb lib image (cfg.resizedSides image.height image.width).1.toNat
        (cfg.resizedSides image.height image.width).2.toNat) := ⟨high, across⟩
    obtain ⟨out, run, _⟩ := patchifyImage_rows aligned
    exact ⟨_, run, rfl⟩

/-! ### Features in their places -/

/-- The merge row by row. -/
def spliceRows (imageTokenId : Int) : (ids : List Int) → (embeds features : List R) → List R
  | id :: ids, e :: embeds, features =>
    if id = imageTokenId then features.take 1 ++ spliceRows imageTokenId ids embeds (features.drop 1)
    else e :: spliceRows imageTokenId ids embeds features
  | _, _, _ => []

section splice
variable {tok : Int} {ids ids' : List Int} {embeds embeds' features : List R}

theorem spliceRows_append (size : embeds.length = ids.length) :
    spliceRows tok (ids ++ ids') (embeds ++ embeds') features =
      spliceRows tok ids embeds features ++ spliceRows tok ids' embeds' (features.drop (ids.count tok)) := by
  induction ids generalizing embeds features with
  | nil =>
    obtain rfl := List.length_eq_zero_iff.mp size
    rfl
  | cons id ids ih =>
    obtain ⟨e, embeds, rfl⟩ := List.exists_cons_of_length_eq_add_one size
    have size' : embeds.length = ids.length := by simpa using size
    rw [List.cons_append, List.cons_append, spliceRows, spliceRows]
    split_ifs with here
    · rw [ih size', List.drop_drop, here, List.count_cons_self, List.append_assoc, Nat.add_comm 1]
    · rw [ih size', List.count_cons_of_ne here, List.cons_append]

theorem spliceRows_text (text : tok ∉ ids) (size : embeds.length = ids.length) :
    spliceRows tok ids embeds features = embeds := by
  induction ids generalizing embeds with
  | nil =>
    obtain rfl := List.length_eq_zero_iff.mp size
    rfl
  | cons id ids ih =>
    obtain ⟨e, embeds, rfl⟩ := List.exists_cons_of_length_eq_add_one size
    have other : id ≠ tok := fun same => text (by simp [same])
    rw [spliceRows, if_neg other, ih (fun later => text (.tail _ later)) (by simpa using size)]

theorem spliceRows_image {n : Nat} (size : embeds.length = n) :
    spliceRows tok (List.replicate n tok) embeds features = features.take n := by
  induction n generalizing embeds features with
  | zero => rw [List.replicate_zero, spliceRows, List.take_zero]; simp
  | succ n ih =>
    obtain ⟨e, embeds, rfl⟩ := List.exists_cons_of_length_eq_add_one size
    rw [List.replicate_succ, spliceRows, if_pos rfl, ih (by simpa using size), Nat.add_comm n 1, List.take_add]

/-- The run at the front: its tokens are all image tokens, or none is. -/
theorem run_kind (tok id : Int) (ids : List Int) :
    ∀ next ∈ (id :: ids).take ((ids.takeWhile fun next => (next == tok) == (id == tok)).length + 1),
      (next == tok) = (id == tok) := by
  intro next member
  rw [List.take_succ_cons, List.prefix_iff_eq_take.mp (List.takeWhile_prefix _) |>.symm] at member
  rcases List.mem_cons.mp member with rfl | later
  · rfl
  · have kind : ((next == tok) == (id == tok)) = true :=
      List.mem_takeWhile_imp (p := fun next => (next == tok) == (id == tok)) later
    exact eq_of_beq kind

theorem run_room (id : Int) (p : Int → Bool) : (ids.takeWhile p).length + 1 ≤ (id :: ids).length :=
  Nat.succ_le_succ (List.takeWhile_prefix p).length_le

theorem mergeImageFeatures_eq (size : embeds.length = ids.length) :
    mergeImageFeatures tok ids embeds features = spliceRows tok ids embeds features := by
  fun_induction mergeImageFeatures tok ids embeds features with
  | case1 embeds features => simp [spliceRows]
  | case2 id ids embeds features isImage run image ih =>
    have room : run ≤ (id :: ids).length := run_room id _
    have front : (id :: ids).take run = List.replicate run tok := by
      refine List.eq_replicate_iff.mpr ⟨by simpa using room, fun next member => ?_⟩
      exact eq_of_beq ((run_kind tok id ids next member).trans image)
    conv_rhs => rw [← List.take_append_drop run (id :: ids), ← List.take_append_drop run embeds]
    rw [spliceRows_append (by simp [size]), front, spliceRows_image (by simp [size]; omega), List.count_replicate_self,
      ih (by simp [size])]
  | case3 id ids embeds features isImage run text ih =>
    have other : tok ∉ (id :: ids).take run := by
      intro member
      have kind := run_kind tok id ids tok member
      rw [beq_self_eq_true] at kind
      exact text kind.symm
    conv_rhs => rw [← List.take_append_drop run (id :: ids), ← List.take_append_drop run embeds]
    rw [spliceRows_append (by simp [size]), spliceRows_text other (by simp [size]), List.count_eq_zero_of_not_mem other,
      List.drop_zero, ih (by simp [size])]

end splice

theorem exists_split {xs : List R} {m n : Nat} (size : xs.length = m + n) :
    ∃ front back, xs = front ++ back ∧ front.length = m ∧ back.length = n :=
  ⟨xs.take m, xs.drop m, (List.take_append_drop m xs).symm, by simp [size], by simp [size]⟩

/-- One block: the placeholders take the features, the two markers around them keep their rows. -/
theorem spliceRows_block {id : Marker → Int} (distinct : Function.Injective id) {ids : List Int} {pads embeds feature features : List R}
    (opening closing : R) (same : pads.length = feature.length) :
    spliceRows (id .pad) ((Markers.items id).block feature.length ++ ids) (opening :: (pads ++ [closing]) ++ embeds)
        (feature ++ features) =
      opening :: (feature ++ [closing]) ++ spliceRows (id .pad) ids embeds features := by
  have start : id .start ≠ id .pad := fun same => Marker.noConfusion (distinct same)
  have stop : id .stop ≠ id .pad := fun same => Marker.noConfusion (distinct same)
  rw [Markers.block_items, List.cons_append, List.cons_append, spliceRows, if_neg start, List.append_assoc,
    List.append_assoc, spliceRows_append (by simpa using same), spliceRows_image same, List.count_replicate_self,
    List.take_left, List.drop_left, List.singleton_append, List.singleton_append, spliceRows, if_neg stop, List.cons_append,
    List.append_assoc, List.singleton_append]

/-- The placeholders of each block hold the features of one image; every other row is the token's own. -/
inductive Scattered (id : Marker → Int) : (ids : List Int) → (embeds rows : List R) → (features : List (List R)) → Prop where
  | free {ids : List Int} {embeds : List R} (free : (Markers.items id).Free ids) (size : embeds.length = ids.length) :
      Scattered id ids embeds embeds []
  | block {before after : List Int} {front pads feature embeds rows : List R} {opening closing : R}
      {features : List (List R)} (free : (Markers.items id).Free before) (size : front.length = before.length)
      (same : pads.length = feature.length) (rest : Scattered id after embeds rows features) :
      Scattered id (before ++ (Markers.items id).block feature.length ++ after)
        (front ++ (opening :: (pads ++ [closing])) ++ embeds) (front ++ (opening :: (feature ++ [closing])) ++ rows)
        (feature :: features)

/-- Features as long as the blocks go where they belong. -/
theorem scattered_merge {id : Marker → Int} (distinct : Function.Injective id) {ids : List Int} {counts : List Nat}
    (blocks : (Markers.items id).Blocks ids counts) {features : List (List R)} (sizes : features.map List.length = counts)
    {embeds : List R} (size : embeds.length = ids.length) :
    Scattered id ids embeds (mergeImageFeatures (id .pad) ids embeds features.flatten) features := by
  rw [mergeImageFeatures_eq size]
  induction blocks generalizing embeds features with
  | @free ids free =>
    obtain rfl := List.map_eq_nil_iff.mp sizes
    rw [spliceRows_text (Markers.free_items_iff.mp free .pad) size]
    exact .free free size
  | @block before after n counts free _ ih =>
    obtain ⟨feature, features, rfl, rfl, _⟩ := List.map_eq_cons_iff.mp sizes
    have room : embeds.length = before.length + (feature.length + after.length + 1 + 1) := by
      rw [size, Markers.block_items]
      simp
      omega
    obtain ⟨front, rest, rfl, front_size, rest_size⟩ := exists_split room
    obtain ⟨opening, rest, rfl⟩ := List.exists_cons_of_length_eq_add_one rest_size
    have rest_room : rest.length = feature.length + (after.length + 1) := by
      rw [List.length_cons] at rest_size
      omega
    obtain ⟨pads, rest, rfl, same, rest_size⟩ := exists_split rest_room
    obtain ⟨closing, embeds, rfl⟩ := List.exists_cons_of_length_eq_add_one rest_size
    have embeds_size : embeds.length = after.length := by simpa using rest_size
    have text := Markers.free_items_iff.mp free .pad
    have shape : opening :: (pads ++ closing :: embeds) = opening :: (pads ++ [closing]) ++ embeds := by simp
    rw [shape, List.append_assoc before, spliceRows_append front_size, spliceRows_text text front_size,
      List.count_eq_zero_of_not_mem text, List.drop_zero, List.flatten_cons, spliceRows_block distinct opening closing same,
      ← List.append_assoc before, ← List.append_assoc front, ← List.append_assoc front]
    exact .block free front_size same (ih (List.cons.inj sizes).2 embeds_size)

end Mlxforge
