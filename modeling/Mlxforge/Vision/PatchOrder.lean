import Mathlib.Analysis.SpecialFunctions.Pow.Real
import Mlxforge.Lib.NdArray
import Mlxforge.Lib.Rows
import Mlxforge.Model.Mrope

/-!
The merged-block order of the patches of a list of images, and the tower's rotary angles, which follow it.
-/

namespace Mlxforge

/-- The patch at (row, column) of a frame of an image. -/
structure PatchPosition where
  image : Nat
  frame : Nat
  row : Nat
  col : Nat
  deriving DecidableEq, Repr

/-- Merge blocks of one image, in row-major order. -/
def gridBlocks (merge image : Nat) (g : ImageGrid) : List PatchPosition :=
  (List.range g.t).flatMap fun f => (List.range (g.h / merge)).flatMap fun br => (List.range (g.w / merge)).map fun bc =>
    ⟨image, f, br, bc⟩

/-- The patches of one merge block, in row-major order. -/
def blockPatches (merge : Nat) (block : PatchPosition) : List PatchPosition :=
  (List.range merge).flatMap fun ir => (List.range merge).map fun ic =>
    ⟨block.image, block.frame, block.row * merge + ir, block.col * merge + ic⟩

/-- The merge blocks of the images, which are numbered from `image`. -/
def blockOrder (merge : Nat) : (image : Nat) → List ImageGrid → List PatchPosition
  | _, [] => []
  | image, g :: grids => gridBlocks merge image g ++ blockOrder merge (image + 1) grids

/-- The patches of the images, block by block. -/
def patchOrder (merge : Nat) (grids : List ImageGrid) : List PatchPosition :=
  (blockOrder merge 0 grids).flatMap (blockPatches merge)

/-! ### Rotary angles -/

/-- Row and column of each patch, as the nested loops push them. -/
def ropePositions (merge : Nat) (grids : List ImageGrid) : List (Nat × Nat) :=
  grids.flatMap fun g =>
    let mh := g.h / merge
    let mw := g.w / merge
    (List.range g.t).flatMap fun _ => (List.range mh).flatMap fun br => (List.range mw).flatMap fun bc =>
      (List.range merge).flatMap fun ir => (List.range merge).map fun ic => (br * merge + ir, bc * merge + ic)

/-- `1 / 10000 ^ (idx / dim)` for `idx` in `arange(0, dim, 2)`. -/
noncomputable def invFreq (dim : Nat) : NdArray ℝ :=
  ⟨[(dim + 1) / 2], fun i => (((10000 : ℕ) : ℝ) ^ (((2 * i : ℕ) : ℝ) / dim))⁻¹⟩

/-- The angles of the patches: row angles, then column angles. -/
noncomputable def rope2dFreqs (merge headDim : Nat) (grids : List ImageGrid) : Except String (NdArray ℝ) := do
  let positions := ropePositions merge grids
  let tokens := positions.length
  let dim := headDim / 2
  let half := dim / 2
  let inv ← (invFreq dim).reshape [1, half]
  let rowa : NdArray ℝ := ⟨[tokens, 1], fun n => ((positions.map Prod.fst).getD n 0 : Nat)⟩
  let cola : NdArray ℝ := ⟨[tokens, 1], fun n => ((positions.map Prod.snd).getD n 0 : Nat)⟩
  let angles := fun a : NdArray ℝ => (a.broadcastTo [tokens, half]).zip (· * ·) inv
  return (angles rowa).beside (angles cola)

section Order

variable {merge : Nat}

/-- The loops of the angles visit the patches in the order of `patchOrder`. -/
theorem ropePositions_eq (merge : Nat) (grids : List ImageGrid) :
    ropePositions merge grids = (patchOrder merge grids).map fun p => (p.row, p.col) := by
  unfold patchOrder
  generalize 0 = image
  induction grids generalizing image with
  | nil => rfl
  | cons g grids ih =>
    rw [blockOrder, List.flatMap_append, List.map_append, ← ih]
    simp [ropePositions, gridBlocks, blockPatches, List.flatMap_assoc, List.flatMap_map, List.map_flatMap,
      Function.comp_def]

/-- The patch with a given block and place in it. -/
def patchAt (merge image : Nat) (index : List Nat) : PatchPosition :=
  ⟨image, index.getD 0 0, index.getD 1 0 * merge + index.getD 3 0, index.getD 2 0 * merge + index.getD 4 0⟩

/-- The axes of one image: frames, block rows, block columns, rows and columns in a block. -/
def ImageGrid.axes (merge : Nat) (g : ImageGrid) : List Nat := [g.t, g.h / merge, g.w / merge, merge, merge]

theorem flatMap_gridBlocks (image : Nat) (g : ImageGrid) :
    (gridBlocks merge image g).flatMap (blockPatches merge) = (indices (g.axes merge)).map (patchAt merge image) := by
  simp [gridBlocks, blockPatches, patchAt, ImageGrid.axes, indices, List.flatMap_assoc, List.map_eq_flatMap]

theorem inside_axes {g : ImageGrid} {index : List Nat} :
    Inside (g.axes merge) index ↔ ∃ f < g.t, ∃ br < g.h / merge, ∃ bc < g.w / merge, ∃ ir < merge, ∃ ic < merge,
      index = [f, br, bc, ir, ic] := by
  constructor
  · intro inside
    simp only [Inside, ImageGrid.axes, List.forall₂_cons_left_iff, List.forall₂_nil_left_iff] at inside
    obtain ⟨f, _, hf, ⟨br, _, hbr, ⟨bc, _, hbc, ⟨ir, _, hir, ⟨ic, _, hic, rfl, rfl⟩, rfl⟩, rfl⟩, rfl⟩, rfl⟩ := inside
    exact ⟨f, hf, br, hbr, bc, hbc, ir, hir, ic, hic, rfl⟩
  · rintro ⟨f, hf, br, hbr, bc, hbc, ir, hir, ic, hic, rfl⟩
    exact .cons hf (.cons hbr (.cons hbc (.cons hir (.cons hic .nil))))

/-- Sides that are multiples of the block side. -/
def ImageGrid.Blocks (merge : Nat) (g : ImageGrid) : Prop := merge ∣ g.h ∧ merge ∣ g.w

theorem ImageGrid.prod_axes {g : ImageGrid} (blocks : g.Blocks merge) : (g.axes merge).prod = g.t * (g.h * g.w) := by
  obtain ⟨⟨mh, high⟩, mw, wide⟩ := blocks
  rcases Nat.eq_zero_or_pos merge with rfl | positive
  · simp [axes, high]
  · simp only [axes, high, wide, Nat.mul_div_cancel_left _ positive, List.prod_cons, List.prod_nil]
    ring

/-- The patches of the first `i` images. -/
def patchesBefore (merge : Nat) (grids : List ImageGrid) (i : Nat) : Nat :=
  ((grids.take i).map fun g => (g.axes merge).prod).sum

theorem getElem?_blockOrder {grids : List ImageGrid} (base r : Nat) {p : PatchPosition}
    (at? : ((blockOrder merge base grids).flatMap (blockPatches merge))[r]? = some p) :
    ∃ i g index, grids[i]? = some g ∧ Inside (g.axes merge) index ∧ p = patchAt merge (base + i) index ∧
      r = patchesBefore merge grids i + ravel (g.axes merge) index := by
  induction grids generalizing base r with
  | nil => simp [blockOrder] at at?
  | cons g grids ih =>
    rw [blockOrder, List.flatMap_append, flatMap_gridBlocks] at at?
    have size : ((indices (g.axes merge)).map (patchAt merge base)).length = (g.axes merge).prod := by
      rw [List.length_map, length_indices]
    obtain here | later := Nat.lt_or_ge r (g.axes merge).prod
    · rw [List.getElem?_append_left (by rwa [size]), List.getElem?_map, getElem?_indices here, Option.map_some,
        Option.some.injEq] at at?
      exact ⟨0, g, _, rfl, inside_unravel here, at?.symm, by rw [ravel_unravel here]; simp [patchesBefore]⟩
    · rw [List.getElem?_append_right (by rwa [size]), size] at at?
      obtain ⟨i, g', index, image, inside, patch, place⟩ := ih (base + 1) _ at?
      refine ⟨i + 1, g', index, image, inside, by rw [patch, Nat.add_assoc, Nat.add_comm 1], ?_⟩
      simp only [patchesBefore, List.take_succ_cons, List.map_cons, List.sum_cons] at place ⊢
      omega

/-- A row of the order: its image, its place in the image and its patch. -/
theorem getElem?_patchOrder {grids : List ImageGrid} {r : Nat} {p : PatchPosition} (at? : (patchOrder merge grids)[r]? = some p) :
    ∃ g index, grids[p.image]? = some g ∧ Inside (g.axes merge) index ∧ p = patchAt merge p.image index ∧
      r = patchesBefore merge grids p.image + ravel (g.axes merge) index := by
  obtain ⟨i, g, index, image, inside, patch, place⟩ := getElem?_blockOrder 0 r at?
  obtain rfl : i = p.image := by
    rw [patch]
    simp [patchAt]
  exact ⟨g, index, image, inside, by simpa using patch, place⟩

theorem length_patchOrder (grids : List ImageGrid) :
    (patchOrder merge grids).length = (grids.map fun g => (g.axes merge).prod).sum := by
  unfold patchOrder
  generalize 0 = base
  induction grids generalizing base with
  | nil => rfl
  | cons g grids ih =>
    rw [blockOrder, List.flatMap_append, List.length_append, ih, flatMap_gridBlocks, List.length_map, length_indices,
      List.map_cons, List.sum_cons]

/-- The patches of one image are all its cells. -/
theorem mem_gridPatches {image : Nat} {g : ImageGrid} (blocks : g.Blocks merge) {p : PatchPosition} :
    p ∈ (indices (g.axes merge)).map (patchAt merge image) ↔
      p.image = image ∧ p.frame < g.t ∧ p.row < g.h ∧ p.col < g.w := by
  have high := Nat.div_mul_cancel blocks.1
  have wide := Nat.div_mul_cancel blocks.2
  rw [List.mem_map]
  constructor
  · rintro ⟨index, mem, rfl⟩
    obtain ⟨f, hf, br, hbr, bc, hbc, ir, hir, ic, hic, rfl⟩ := inside_axes.mp (mem_indices.mp mem)
    refine ⟨rfl, hf, ?_, ?_⟩
    · exact (digit_lt hbr hir).trans_eq high
    · exact (digit_lt hbc hic).trans_eq wide
  · rintro ⟨rfl, hf, hrow, hcol⟩
    obtain ⟨br, hbr, ir, hir, row⟩ := place_of_lt (high.symm ▸ hrow)
    obtain ⟨bc, hbc, ic, hic, col⟩ := place_of_lt (wide.symm ▸ hcol)
    refine ⟨_, mem_indices.mpr (inside_axes.mpr ⟨p.frame, hf, br, hbr, bc, hbc, ir, hir, ic, hic, rfl⟩), ?_⟩
    obtain ⟨image, frame, r, c⟩ := p
    simp only at row col
    simp [patchAt, row, col]

theorem patchAt_injOn (image : Nat) {g : ImageGrid} {a b : List Nat} (left : Inside (g.axes merge) a)
    (right : Inside (g.axes merge) b) (same : patchAt merge image a = patchAt merge image b) : a = b := by
  obtain ⟨f, hf, br, hbr, bc, hbc, ir, hir, ic, hic, rfl⟩ := inside_axes.mp left
  obtain ⟨f', hf', br', hbr', bc', hbc', ir', hir', ic', hic', rfl⟩ := inside_axes.mp right
  simp only [patchAt, PatchPosition.mk.injEq, List.getD_cons_zero, List.getD_cons_succ] at same
  obtain ⟨-, rfl, rows, cols⟩ := same
  have row := divMod_add hir (q := br)
  have col := divMod_add hic (q := bc)
  rw [rows, (divMod_add hir').1, (divMod_add hir').2] at row
  rw [cols, (divMod_add hic').1, (divMod_add hic').2] at col
  rw [row.1, row.2, col.1, col.2]

/-- Every cell of every image is one patch. -/
theorem mem_patchOrder {grids : List ImageGrid} (blocks : ∀ g ∈ grids, g.Blocks merge) {p : PatchPosition} :
    p ∈ patchOrder merge grids ↔ ∃ g, grids[p.image]? = some g ∧ p.frame < g.t ∧ p.row < g.h ∧ p.col < g.w := by
  have from_base : ∀ base, p ∈ (blockOrder merge base grids).flatMap (blockPatches merge) ↔
      ∃ i g, p.image = base + i ∧ grids[i]? = some g ∧ p.frame < g.t ∧ p.row < g.h ∧ p.col < g.w := by
    induction grids with
    | nil => simp [blockOrder]
    | cons g grids ih =>
      intro base
      rw [blockOrder, List.flatMap_append, flatMap_gridBlocks, List.mem_append, mem_gridPatches (blocks g List.mem_cons_self),
        ih (fun g mem => blocks g (List.mem_cons_of_mem _ mem))]
      constructor
      · rintro (⟨image, cell⟩ | ⟨i, g', image, at?, cell⟩)
        · exact ⟨0, g, image, rfl, cell⟩
        · exact ⟨i + 1, g', by omega, at?, cell⟩
      · rintro ⟨i, g', image, at?, cell⟩
        cases i with
        | zero =>
          obtain rfl : g = g' := by simpa using at?
          exact .inl ⟨image, cell⟩
        | succ i => exact .inr ⟨i, g', by omega, by simpa using at?, cell⟩
  rw [patchOrder, from_base]
  constructor
  · rintro ⟨i, g, image, at?, cell⟩
    exact ⟨g, by rwa [image, Nat.zero_add], cell⟩
  · rintro ⟨g, at?, cell⟩
    exact ⟨p.image, g, (Nat.zero_add _).symm, at?, cell⟩

theorem nodup_patchOrder (grids : List ImageGrid) : (patchOrder merge grids).Nodup := by
  unfold patchOrder
  generalize 0 = base
  induction grids generalizing base with
  | nil => exact List.nodup_nil
  | cons g grids ih =>
    rw [blockOrder, List.flatMap_append, flatMap_gridBlocks, List.nodup_append']
    refine ⟨?_, ih _, ?_⟩
    · refine (nodup_indices _).map_on fun a left b right same => ?_
      exact patchAt_injOn base (mem_indices.mp left) (mem_indices.mp right) same
    · intro p left right
      obtain ⟨index, -, rfl⟩ := List.mem_map.mp left
      obtain ⟨r, at?⟩ := List.mem_iff_getElem?.mp right
      obtain ⟨i, _, index', _, _, patch, _⟩ := getElem?_blockOrder (base + 1) r at?
      have image := congrArg PatchPosition.image patch
      simp only [patchAt] at image
      omega

/-! ### Merge blocks -/

theorem length_blockPatches (block : PatchPosition) : (blockPatches merge block).length = merge * merge := by
  rw [blockPatches, length_flatMap_rows (w := merge) (fun i _ => by simp)]

/-- Each run of `merge * merge` rows is one block, in row-major order. -/
theorem getElem?_merge {grids : List ImageGrid} {b ir ic : Nat} {block : PatchPosition}
    (at? : (blockOrder merge 0 grids)[b]? = some block) (row : ir < merge) (col : ic < merge) :
    (patchOrder merge grids)[b * (merge * merge) + (ir * merge + ic)]? =
      some ⟨block.image, block.frame, block.row * merge + ir, block.col * merge + ic⟩ := by
  rw [patchOrder, getElem?_flatMap_rows length_blockPatches b (digit_lt row col), at?, Option.bind_some, blockPatches,
    getElem?_flatMap_rows (fun i => by simp) ir col, List.getElem?_range row, Option.bind_some, List.getElem?_map,
    List.getElem?_range col, Option.map_some]

theorem length_patchOrder_blocks (grids : List ImageGrid) : (patchOrder merge grids).length =
    (blockOrder merge 0 grids).length * (merge * merge) := by
  rw [patchOrder, List.length_flatMap, List.map_congr_left fun block _ => length_blockPatches block, List.map_const',
    List.sum_replicate_nat]

/-! ### Matrices with one row a patch -/

/-- Row `ravel axes index` holds the values of the patch at `index`. -/
def ByPatch {α : Type*} (merge w : Nat) (g : ImageGrid) (value : (row col j : Nat) → α) (a : NdArray α) : Prop :=
  a.shape = [(g.axes merge).prod, w] ∧ ∀ index j, Inside (g.axes merge) index → j < w →
    a.get [ravel (g.axes merge) index, j] = value (patchAt merge 0 index).row (patchAt merge 0 index).col j

/-- Matrices of the images, one below the other, have their rows in the order of the patches. -/
theorem concatenate_byPatch {α ι : Type*} {w : Nat} (grid : ι → ImageGrid) {value : ι → (row col j : Nat) → α} {items : List ι}
    {arrays : List (NdArray α)} (each : List.Forall₂ (fun x a => ByPatch merge w (grid x) (value x) a) items arrays)
    (some : items ≠ []) :
    ∃ out, NdArray.concatenate arrays = .ok out ∧ out.shape = [(patchOrder merge (items.map grid)).length, w] ∧
      ∀ (r : Nat) p, (patchOrder merge (items.map grid))[r]? = .some p → ∃ x, items[p.image]? = .some x ∧
        ∀ j < w, out.get [r, j] = value x p.row p.col j := by
  have sizes : NdArray.Matrices w arrays (items.map fun x => ((grid x).axes merge).prod) := by
    rw [NdArray.Matrices, List.forall₂_map_right_iff]
    exact each.flip.imp fun _ _ byPatch => byPatch.1
  obtain ⟨out, run, shape, rows⟩ := NdArray.concatenate_rows sizes (by
    rintro rfl
    cases each
    exact some rfl)
  refine ⟨out, run, ?_, ?_⟩
  · rw [shape, length_patchOrder, List.map_map]
    rfl
  · intro r p at?
    obtain ⟨g, index, image, inside, patch, place⟩ := getElem?_patchOrder at?
    rw [List.getElem?_map, Option.map_eq_some_iff] at image
    obtain ⟨x, image, rfl⟩ := image
    refine ⟨x, image, fun j below => ?_⟩
    obtain ⟨a, array, byPatch⟩ : ∃ a, arrays[p.image]? = .some a ∧ ByPatch merge w (grid x) (value x) a := by
      obtain ⟨inList, rfl⟩ := List.getElem?_eq_some_iff.mp image
      have inArrays : p.image < arrays.length := each.length_eq ▸ inList
      exact ⟨arrays[p.image], List.getElem?_eq_getElem inArrays, each.get inList inArrays⟩
    have row := rows p.image a _ array (by rw [List.getElem?_map, image]; rfl) (ravel ((grid x).axes merge) index)
      (ravel_lt inside) j below
    rw [place, patchesBefore, ← List.map_take, List.map_map]
    rw [← List.map_take] at row
    refine row.trans ?_
    rw [byPatch.2 index j inside below, patch]
    rfl

/-! ### The rows of the angles -/

/-- The outer product of one column and the frequencies. -/
theorem get_angles {tokens half : Nat} (values : List Nat) (inv : Nat → ℝ) {r i : Nat} (row : r < tokens) (col : i < half) :
    (((NdArray.mk [tokens, 1] fun n => ((values.getD n 0 : Nat) : ℝ)).broadcastTo [tokens, half]).zip (· * ·)
      (NdArray.mk [1, half] inv)).get [r, i] = (values.getD r 0 : Nat) * inv i := by
  have inside : Inside [tokens, half] [r, i] := .cons row (.cons col .nil)
  rw [NdArray.get_zip inside, NdArray.get_broadcastTo inside]
  simp only [List.zipWith_cons_cons, List.zipWith_nil_left, NdArray.broadcastIndex row, NdArray.broadcastIndex col, if_true,
    NdArray.get, ravel, List.prod_cons, List.prod_nil]
  simp

/-- Row `r` of the angles belongs to patch `r` of the order. -/
theorem rope2dFreqs_rows (merge headDim : Nat) (even : 2 ∣ headDim / 2) (grids : List ImageGrid) :
    ∃ out, rope2dFreqs merge headDim grids = .ok out ∧ out.shape = [(patchOrder merge grids).length, headDim / 2] ∧
      ∀ (r : Nat) p, (patchOrder merge grids)[r]? = some p → ∀ i < headDim / 2 / 2,
        out.get [r, i] = p.row * (invFreq (headDim / 2)).get [i] ∧
          out.get [r, headDim / 2 / 2 + i] = p.col * (invFreq (headDim / 2)).get [i] := by
  have half : (headDim / 2 + 1) / 2 = headDim / 2 / 2 := by omega
  have inv : (invFreq (headDim / 2)).reshape [1, headDim / 2 / 2] =
      .ok ⟨[1, headDim / 2 / 2], (invFreq (headDim / 2)).flat⟩ := by
    refine NdArray.reshape_ok ?_
    simp [invFreq, half]
  have positions := ropePositions_eq merge grids
  have tokens : (ropePositions merge grids).length = (patchOrder merge grids).length := by
    rw [positions, List.length_map]
  refine ⟨_, by rw [rope2dFreqs, inv]; rfl, ?_, ?_⟩
  · simp only [NdArray.beside, NdArray.zip, NdArray.broadcastTo, NdArray.dim, List.getD_cons_zero, List.getD_cons_succ, tokens,
      List.cons.injEq, and_true, true_and]
    omega
  · intro r p at? i below
    obtain ⟨row, -⟩ := List.getElem?_eq_some_iff.mp at?
    have rows : ((ropePositions merge grids).map Prod.fst).getD r 0 = p.row := by
      rw [List.getD_eq_getElem?_getD, List.getElem?_map, positions, List.getElem?_map, at?]
      rfl
    have cols : ((ropePositions merge grids).map Prod.snd).getD r 0 = p.col := by
      rw [List.getD_eq_getElem?_getD, List.getElem?_map, positions, List.getElem?_map, at?]
      rfl
    have inside : r < (ropePositions merge grids).length := by rwa [tokens]
    have freq : (invFreq (headDim / 2)).get [i] = (invFreq (headDim / 2)).flat i := by
      simp [NdArray.get, invFreq, ravel]
    rw [freq, ← rows, ← cols]
    constructor
    · rw [NdArray.get_beside (by simp [NdArray.dim, NdArray.zip, NdArray.broadcastTo]; omega),
        if_pos (by simpa [NdArray.dim, NdArray.zip, NdArray.broadcastTo] using below)]
      exact get_angles _ _ inside below
    · rw [NdArray.get_beside (by simpa [NdArray.dim, NdArray.zip, NdArray.broadcastTo] using below),
        if_neg (by simp [NdArray.dim, NdArray.zip, NdArray.broadcastTo])]
      simp only [NdArray.dim, NdArray.zip, NdArray.broadcastTo, List.getD_cons_succ, List.getD_cons_zero, Nat.add_sub_cancel_left]
      exact get_angles _ _ inside below

end Order

end Mlxforge
