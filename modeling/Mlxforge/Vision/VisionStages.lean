import Mlxforge.Vision.Patchify
import Mlxforge.Vision.PosEmbed

/-!
The three tables that the vision tower reads for a list of images. Their rows refer to the same patches, in merged-block
order.
-/

namespace Mlxforge

variable {K : Type} [Field K]

/-- Pixel rows, rotary angles and position embeddings. -/
structure VisionStages (K : Type) where
  pixels : NdArray K
  freqs : NdArray ℝ
  embeds : NdArray K

/-- The tables of a list of images, the patch rows of each image below those of the images before it. -/
noncomputable def visionStages (cfg : PreprocessConfig K) (headDim numPositionEmbeddings hidden : Nat) (table : NdArray K)
    (images : List RgbImage) : Except String (VisionStages K) := do
  let pre ← images.mapM fun image => patchifyImage image.pixels cfg
  let grids := pre.map (·.gridThw)
  let pixels ← NdArray.concatenate (pre.map (·.pixelValues))
  let freqs ← rope2dFreqs cfg.mergeSize headDim grids
  let embeds ← posEmbed table numPositionEmbeddings hidden cfg.mergeSize grids
  return ⟨pixels, freqs, embeds⟩

/-- The axes of a pixel row: channel, frame, row and column. -/
def PreprocessConfig.rowAxes (cfg : PreprocessConfig K) : List Nat := [3, cfg.temporalPatchSize, cfg.patchSize, cfg.patchSize]

/-- The patches of a list of images. -/
def PreprocessConfig.order (cfg : PreprocessConfig K) (images : List RgbImage) : List PatchPosition :=
  patchOrder cfg.mergeSize (images.map cfg.grid)

/-- The rows of the tables refer to the patches of `order`, which has every patch of every image once, block by block. -/
structure StagesAgree (cfg : PreprocessConfig K) (headDim numPositionEmbeddings hidden : Nat) (table : NdArray K)
    (images : List RgbImage) (out : VisionStages K) : Prop where
  pixelShape : out.pixels.shape = [(cfg.order images).length, cfg.rowAxes.prod]
  freqShape : out.freqs.shape = [(cfg.order images).length, headDim / 2]
  embedShape : out.embeds.shape = [(cfg.order images).length, hidden]
  rows : ∀ (r : Nat) p, (cfg.order images)[r]? = some p → ∃ image, images[p.image]? = some image ∧
    (∀ c τ y x, Inside cfg.rowAxes [c, τ, y, x] → out.pixels.get [r, ravel cfg.rowAxes [c, τ, y, x]] =
      cfg.pixelValue image (p.row * cfg.patchSize + y) (p.col * cfg.patchSize + x) c) ∧
    (∀ i < headDim / 2 / 2, out.freqs.get [r, i] = p.row * (invFreq (headDim / 2)).get [i] ∧
      out.freqs.get [r, headDim / 2 / 2 + i] = p.col * (invFreq (headDim / 2)).get [i]) ∧
    ∀ j < hidden, out.embeds.get [r, j] = cellEmbed table (tableSide numPositionEmbeddings) (image.height / cfg.patchSize)
      (image.width / cfg.patchSize) p.row p.col j
  nodup : (cfg.order images).Nodup
  patches : ∀ p, p ∈ cfg.order images ↔ ∃ image, images[p.image]? = some image ∧ p.frame = 0 ∧
    p.row < image.height / cfg.patchSize ∧ p.col < image.width / cfg.patchSize
  pixelOnce : ∀ (i : Nat) image, images[i]? = some image → ∀ y < image.height, ∀ x < image.width,
    ∃! r : Nat, ∃ p, (cfg.order images)[r]? = some p ∧ p.image = i ∧ p.row = y / cfg.patchSize ∧ p.col = x / cfg.patchSize
  blockCount : (cfg.order images).length =
    (blockOrder cfg.mergeSize 0 (images.map cfg.grid)).length * (cfg.mergeSize * cfg.mergeSize)
  blocks : ∀ (b : Nat) block, (blockOrder cfg.mergeSize 0 (images.map cfg.grid))[b]? = some block →
    ∀ ir < cfg.mergeSize, ∀ ic < cfg.mergeSize,
      (cfg.order images)[b * (cfg.mergeSize * cfg.mergeSize) + (ir * cfg.mergeSize + ic)]? =
        some ⟨block.image, block.frame, block.row * cfg.mergeSize + ir, block.col * cfg.mergeSize + ic⟩

section Aligned

variable {cfg : PreprocessConfig K} {images : List RgbImage}

theorem PreprocessConfig.Aligned.blocks {image : RgbImage} (aligned : cfg.Aligned image) :
    (cfg.grid image).Blocks cfg.mergeSize :=
  ⟨Nat.dvd_div_of_mul_dvd aligned.1, Nat.dvd_div_of_mul_dvd aligned.2⟩

/-- Entry `j` of the pixel row of the patch at (row, col). -/
def PreprocessConfig.patchEntry (cfg : PreprocessConfig K) (image : RgbImage) (row col j : Nat) : K :=
  cfg.pixelValue image (row * cfg.patchSize + (unravel cfg.rowAxes j).getD 2 0)
    (col * cfg.patchSize + (unravel cfg.rowAxes j).getD 3 0) ((unravel cfg.rowAxes j).getD 0 0)

theorem patchEntry_ravel {image : RgbImage} {row col c τ y x : Nat} (inside : Inside cfg.rowAxes [c, τ, y, x]) :
    cfg.patchEntry image row col (ravel cfg.rowAxes [c, τ, y, x]) =
      cfg.pixelValue image (row * cfg.patchSize + y) (col * cfg.patchSize + x) c := by
  rw [PreprocessConfig.patchEntry, unravel_ravel inside]
  rfl

/-- The rows of one image, by patch. -/
theorem patchifyImage_byPatch {image : RgbImage} (aligned : cfg.Aligned image) :
    ∃ pre, patchifyImage image.pixels cfg = .ok pre ∧ pre.gridThw = cfg.grid image ∧
      ByPatch cfg.mergeSize cfg.rowAxes.prod (cfg.grid image) (cfg.patchEntry image) pre.pixelValues := by
  obtain ⟨out, run, shape, rows⟩ := patchifyImage_rows aligned
  refine ⟨_, run, rfl, ?_, ?_⟩
  · rw [shape, ImageGrid.prod_axes aligned.blocks]
    simp only [PreprocessConfig.rowAxes, PreprocessConfig.grid, List.prod_cons, List.prod_nil, Nat.one_mul, Nat.mul_one,
      Nat.mul_assoc]
  · intro index j inside below
    obtain ⟨f, hf, br, hbr, bc, hbc, ir, hir, ic, hic, rfl⟩ := inside_axes.mp inside
    obtain rfl : f = 0 := Nat.lt_one_iff.mp hf
    have entry := inside_unravel below
    simp only [Inside, PreprocessConfig.rowAxes, List.forall₂_cons_left_iff, List.forall₂_nil_left_iff] at entry
    obtain ⟨c, _, hc, ⟨τ, _, hτ, ⟨y, _, hy, ⟨x, _, hx, rfl, rfl⟩, rfl⟩, rfl⟩, place⟩ := entry
    have here := rows br bc ir ic c τ y x
      (.cons hbr (.cons hbc (.cons hir (.cons hic (.cons hc (.cons hτ (.cons hy (.cons hx .nil))))))))
    have column : j = ravel cfg.rowAxes [c, τ, y, x] := by
      rw [PreprocessConfig.rowAxes, ← place]
      exact (ravel_unravel below).symm
    rw [column, patchEntry_ravel (.cons hc (.cons hτ (.cons hy (.cons hx .nil))))]
    refine Eq.trans ?_ here
    simp only [ImageGrid.axes, ravel, Nat.zero_mul, Nat.zero_add, PreprocessConfig.rowAxes]

theorem prod_rowAxes : cfg.rowAxes.prod = 3 * cfg.temporalPatchSize * cfg.patchSize * cfg.patchSize := by
  simp only [PreprocessConfig.rowAxes, List.prod_cons, List.prod_nil, Nat.mul_one, Nat.mul_assoc]

theorem mem_order (aligned : ∀ image ∈ images, cfg.Aligned image) (p : PatchPosition) :
    p ∈ cfg.order images ↔ ∃ image, images[p.image]? = some image ∧ p.frame = 0 ∧
      p.row < image.height / cfg.patchSize ∧ p.col < image.width / cfg.patchSize := by
  rw [PreprocessConfig.order, mem_patchOrder]
  · simp only [List.getElem?_map, Option.map_eq_some_iff]
    constructor
    · rintro ⟨g, ⟨image, at?, rfl⟩, frame, cell⟩
      exact ⟨image, at?, Nat.lt_one_iff.mp frame, cell⟩
    · rintro ⟨image, at?, frame, cell⟩
      exact ⟨cfg.grid image, ⟨image, at?, rfl⟩, Nat.lt_one_iff.mpr frame, cell⟩
  · intro g mem
    obtain ⟨image, listed, rfl⟩ := List.mem_map.mp mem
    exact (aligned image listed).blocks

/-- The patch of a pixel is in the order once. -/
theorem pixel_once (aligned : ∀ image ∈ images, cfg.Aligned image) {i : Nat} {image : RgbImage} (at? : images[i]? = some image)
    {y x : Nat} (row : y < image.height) (col : x < image.width) :
    ∃! r : Nat, ∃ p, (cfg.order images)[r]? = some p ∧ p.image = i ∧ p.row = y / cfg.patchSize ∧ p.col = x / cfg.patchSize := by
  have here := aligned image (List.mem_of_getElem? at?)
  have cell : ∀ {side n : Nat}, cfg.patchSize * cfg.mergeSize ∣ side → n < side → n / cfg.patchSize < side / cfg.patchSize := by
    intro side n divides below
    obtain ⟨patches, rfl⟩ := (Dvd.intro _ rfl).trans divides
    rcases Nat.eq_zero_or_pos cfg.patchSize with zero | positive
    · rw [zero, Nat.zero_mul] at below
      omega
    · rw [Nat.mul_div_cancel_left _ positive]
      exact Nat.div_lt_of_lt_mul below
  have member := (mem_order aligned ⟨i, 0, y / cfg.patchSize, x / cfg.patchSize⟩).mpr
    ⟨image, at?, rfl, cell here.1 row, cell here.2 col⟩
  obtain ⟨r, found⟩ := List.mem_iff_getElem?.mp member
  refine ⟨r, ⟨_, found, rfl, rfl, rfl⟩, ?_⟩
  rintro r' ⟨p, found', image', row', col'⟩
  obtain ⟨_, _, frame', _⟩ := (mem_order aligned p).mp (List.mem_of_getElem? found')
  obtain ⟨_, _, _, _⟩ := p
  simp only at image' row' col' frame'
  subst image' row' col' frame'
  have inside := (List.getElem?_eq_some_iff.mp found').1
  exact (List.getElem?_inj inside (nodup_patchOrder _)).mp (found'.trans found.symm)

/-- The angles exist when the two halves of a head have whole frequency bands. -/
theorem even_of_rope2dFreqs {merge headDim : Nat} {grids : List ImageGrid} {out : NdArray ℝ}
    (run : rope2dFreqs merge headDim grids = .ok out) : 2 ∣ headDim / 2 := by
  rw [rope2dFreqs] at run
  obtain ⟨inv, reshaped, -⟩ := bind_ok run
  rw [NdArray.reshape] at reshaped
  split at reshaped
  · rename_i same
    simp only [invFreq, List.prod_cons, List.prod_nil] at same
    omega
  · cases reshaped

theorem visionStages_ok (headDim numPositionEmbeddings hidden : Nat) (table : NdArray K) (some : images ≠ [])
    (even : 2 ∣ headDim / 2) (aligned : ∀ image ∈ images, cfg.Aligned image) :
    ∃ out, visionStages cfg headDim numPositionEmbeddings hidden table images = .ok out ∧
      StagesAgree cfg headDim numPositionEmbeddings hidden table images out := by
  obtain ⟨pre, patchified, each⟩ := mapM_forall₂ fun image (mem : image ∈ images) => patchifyImage_byPatch (aligned image mem)
  have grids : pre.map (·.gridThw) = images.map cfg.grid :=
    (map_eq_of_forall₂ (each.flip.imp fun _ _ related => related.1))
  obtain ⟨pixels, stacked, pixelShape, pixelRows⟩ := concatenate_byPatch cfg.grid
    (List.forall₂_map_right_iff.mpr (each.imp fun _ _ related => related.2)) some
  obtain ⟨freqs, angles, freqShape, freqRows⟩ := rope2dFreqs_rows cfg.mergeSize headDim even (images.map cfg.grid)
  obtain ⟨embeds, embedded, embedShape, embedRows⟩ := posEmbed_rows table numPositionEmbeddings hidden
    (show images.map cfg.grid ≠ [] by simpa using some)
    (by
      intro g mem
      obtain ⟨image, _, rfl⟩ := List.mem_map.mp mem
      exact Nat.one_pos)
    (by
      intro g mem
      obtain ⟨image, listed, rfl⟩ := List.mem_map.mp mem
      exact (aligned image listed).blocks)
  refine ⟨⟨pixels, freqs, embeds⟩, ?_, pixelShape, freqShape, embedShape, ?_, nodup_patchOrder _, mem_order aligned,
    fun i image at? y row x col => pixel_once aligned at? row col, length_patchOrder_blocks _,
    fun b block at? ir row ic col => getElem?_merge at? row col⟩
  · rw [visionStages]
    simp only [patchified, ok_bind, grids, stacked, angles, embedded]
    rfl
  · intro r p at?
    obtain ⟨image, here, pixelRow⟩ := pixelRows r p at?
    obtain ⟨g, there, embedRow⟩ := embedRows r p at?
    obtain rfl : cfg.grid image = g := by
      rw [List.getElem?_map, here] at there
      exact Option.some.inj there
    refine ⟨image, here, ?_, freqRows r p at?, embedRow⟩
    intro c τ y x inside
    rw [pixelRow _ (ravel_lt inside), patchEntry_ravel inside]

/-- The tables of aligned images agree; they exist when there is an image and the angles do. -/
theorem visionStages_agree (headDim numPositionEmbeddings hidden : Nat) (table : NdArray K)
    (aligned : ∀ image ∈ images, cfg.Aligned image) :
    (∀ out, visionStages cfg headDim numPositionEmbeddings hidden table images = .ok out →
        StagesAgree cfg headDim numPositionEmbeddings hidden table images out) ∧
      (images ≠ [] → 2 ∣ headDim / 2 →
        ∃ out, visionStages cfg headDim numPositionEmbeddings hidden table images = .ok out) := by
  constructor
  · intro out run
    have even : 2 ∣ headDim / 2 := by
      obtain ⟨pre, _, rest⟩ := bind_ok run
      obtain ⟨pixels, _, rest⟩ := bind_ok rest
      obtain ⟨freqs, angles, _⟩ := bind_ok rest
      exact even_of_rope2dFreqs angles
    have some : images ≠ [] := by
      rintro rfl
      cases run
    obtain ⟨out', run', agree⟩ := visionStages_ok headDim numPositionEmbeddings hidden table some even aligned
    obtain rfl : out' = out := Except.ok.inj (run'.symm.trans run)
    exact agree
  · intro some even
    obtain ⟨out, run, _⟩ := visionStages_ok headDim numPositionEmbeddings hidden table some even aligned
    exact ⟨out, run⟩

end Aligned

/-- A blank image. -/
def blankImage (height width : Nat) : RgbImage := ⟨height, width, ⟨[height, width, 3], fun _ => 0⟩, rfl⟩

/-- Patches of four pixels in blocks of four. -/
def smallConfig : PreprocessConfig ℚ := ⟨2, 2, 2, 1, [0], [1]⟩

def smallTable : NdArray ℚ := ⟨[4, 1], fun n => n⟩

/-- Two images of different shapes. -/
theorem visionStages_agree_twoImages :
    ∃ out, visionStages smallConfig 8 4 1 smallTable [blankImage 4 8, blankImage 8 4] = .ok out ∧
      StagesAgree smallConfig 8 4 1 smallTable [blankImage 4 8, blankImage 8 4] out := by
  have aligned : ∀ image ∈ [blankImage 4 8, blankImage 8 4], smallConfig.Aligned image := by
    simp [PreprocessConfig.Aligned, blankImage, smallConfig]
  obtain ⟨agree, exist⟩ := visionStages_agree 8 4 1 smallTable aligned
  obtain ⟨out, run⟩ := exist (List.cons_ne_nil _ _) (by decide)
  exact ⟨out, run, agree out run⟩

end Mlxforge
