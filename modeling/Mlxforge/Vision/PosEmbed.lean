import Mlxforge.Lib.Except
import Mlxforge.Vision.PatchOrder

/-!
The tower's learned position embeddings, resampled from a square table to the grid of each image.
-/

namespace Mlxforge

variable {K : Type} [Field K]

/-- `std::lround(std::sqrt(n))`: the side of the table. -/
def tableSide (n : Nat) : Nat := if n ≤ Nat.sqrt n * Nat.sqrt n + Nat.sqrt n then Nat.sqrt n else Nat.sqrt n + 1

/-- The table rows around cell `i` of an axis of `n` cells, and how far the cell lies past the lower one. -/
def axisFloor (side n i : Nat) : Nat := if n = 1 then 0 else (side - 1) * i / (n - 1)

def axisCeil (side n i : Nat) : Nat := min (axisFloor side n i + 1) (side - 1)

def axisFraction (side n i : Nat) : K :=
  (if n = 1 then 0 else ((side - 1 : Nat) * i : K) / (n - 1 : Nat)) - axisFloor side n i

/-- A table of the cells of an (h, w) grid, in row-major order. -/
def perCell {α : Type*} (h w : Nat) (f : Nat → Nat → α) : List α :=
  (List.range h).flatMap fun r => (List.range w).map (f r)

/-- One corner of the interpolation: rows of the table, each times its weight. -/
def corner (table : NdArray K) (hidden : Nat) (idx : List Nat) (wt : List K) : NdArray K :=
  ⟨[idx.length, hidden], fun n => table.get [idx.getD (n / hidden) 0, n % hidden] * wt.getD (n / hidden) 0⟩

/-- The embeddings of an (h, w) grid, row-major. -/
def gridEmbed (table : NdArray K) (side hidden h w : Nat) : NdArray K :=
  let i0 := perCell h w fun r c => axisFloor side h r * side + axisFloor side w c
  let i1 := perCell h w fun r c => axisFloor side h r * side + axisCeil side w c
  let i2 := perCell h w fun r c => axisCeil side h r * side + axisFloor side w c
  let i3 := perCell h w fun r c => axisCeil side h r * side + axisCeil side w c
  let a0 := perCell h w fun r c => (1 - axisFraction side h r) * (1 - axisFraction side w c)
  let a1 := perCell h w fun r c => (1 - axisFraction side h r) * axisFraction side w c
  let a2 := perCell h w fun r c => axisFraction side h r * (1 - axisFraction side w c)
  let a3 := perCell h w fun r c => axisFraction side h r * axisFraction side w c
  ((corner table hidden i0 a0).zip (· + ·) (corner table hidden i1 a1)).zip (· + ·)
    ((corner table hidden i2 a2).zip (· + ·) (corner table hidden i3 a3))

/-- The embeddings of one image, in merged-block order. -/
def imageEmbed (table : NdArray K) (side hidden merge : Nat) (g : ImageGrid) : Except String (NdArray K) := do
  let pe := gridEmbed table side hidden g.h g.w
  let pe := if 1 < g.t then pe.tile g.t else pe
  let pe ← pe.reshape [g.t, g.h / merge, merge, g.w / merge, merge, hidden]
  (pe.transpose [0, 1, 3, 2, 4, 5]).reshape [g.t * (g.h * g.w), hidden]

def posEmbed (table : NdArray K) (numPositionEmbeddings hidden merge : Nat) (grids : List ImageGrid) : Except String (NdArray K) := do
  let side := tableSide numPositionEmbeddings
  let perImage ← grids.mapM (imageEmbed table side hidden merge)
  NdArray.concatenate perImage

/-- The interpolated embedding of the cell (row, col) of an (h, w) grid. -/
def cellEmbed (table : NdArray K) (side h w row col j : Nat) : K :=
  let fr := axisFraction side h row
  let fc := axisFraction side w col
  table.get [axisFloor side h row * side + axisFloor side w col, j] * ((1 - fr) * (1 - fc)) +
      table.get [axisFloor side h row * side + axisCeil side w col, j] * ((1 - fr) * fc) +
    (table.get [axisCeil side h row * side + axisFloor side w col, j] * (fr * (1 - fc)) +
      table.get [axisCeil side h row * side + axisCeil side w col, j] * (fr * fc))

/-! ### The row-major grid -/

theorem length_perCell {α : Type*} (h w : Nat) (f : Nat → Nat → α) : (perCell h w f).length = h * w :=
  length_flatMap_rows fun r _ => by simp

theorem getD_perCell {α : Type*} {h w r c : Nat} (f : Nat → Nat → α) (row : r < h) (col : c < w) (d : α) :
    (perCell h w f).getD (r * w + c) d = f r c := by
  rw [List.getD_eq_getElem?_getD, perCell, getElem?_flatMap_rows (fun r => by simp) r col, List.getElem?_range row,
    Option.bind_some, List.getElem?_map, List.getElem?_range col]
  rfl

variable {table : NdArray K} {side hidden merge h w : Nat}

theorem get_corner {r c j : Nat} (idx : Nat → Nat → Nat) (wt : Nat → Nat → K) (row : r < h) (col : c < w) (feature : j < hidden) :
    (corner table hidden (perCell h w idx) (perCell h w wt)).get [r * w + c, j] = table.get [idx r c, j] * wt r c := by
  simp only [NdArray.get, corner, ravel, List.prod_cons, List.prod_nil, Nat.mul_one, Nat.add_zero]
  rw [(divMod_add feature).1, (divMod_add feature).2, getD_perCell idx row col, getD_perCell wt row col]

theorem get_gridEmbed {r c j : Nat} (row : r < h) (col : c < w) (feature : j < hidden) :
    (gridEmbed table side hidden h w).get [r * w + c, j] = cellEmbed table side h w r c j := by
  have inside : Inside [h * w, hidden] [r * w + c, j] := .cons (digit_lt row col) (.cons feature .nil)
  have shape : ∀ (idx : Nat → Nat → Nat) (wt : Nat → Nat → K),
      (corner table hidden (perCell h w idx) (perCell h w wt)).shape = [h * w, hidden] := by
    intro idx wt
    rw [corner, length_perCell]
  have sum : ∀ (idx idx' : Nat → Nat → Nat) (wt wt' : Nat → Nat → K),
      ((corner table hidden (perCell h w idx) (perCell h w wt)).zip (· + ·)
          (corner table hidden (perCell h w idx') (perCell h w wt'))).get [r * w + c, j] =
        table.get [idx r c, j] * wt r c + table.get [idx' r c, j] * wt' r c := by
    intro idx idx' wt wt'
    rw [NdArray.get_zip_same (shape _ _) (shape _ _) inside, get_corner _ _ row col feature, get_corner _ _ row col feature]
  have pair : ∀ (idx idx' : Nat → Nat → Nat) (wt wt' : Nat → Nat → K),
      ((corner table hidden (perCell h w idx) (perCell h w wt)).zip (· + ·)
        (corner table hidden (perCell h w idx') (perCell h w wt'))).shape = [h * w, hidden] := fun idx _ wt _ => shape idx wt
  simp only [gridEmbed]
  rw [NdArray.get_zip_same (pair _ _ _ _) (pair _ _ _ _) inside, sum, sum]
  rfl

/-! ### The rows of one image -/

/-- The embeddings of the frames. -/
theorem get_frames {t f r c j : Nat} (frame : f < t) (row : r < h) (col : c < w) (feature : j < hidden) :
    (if 1 < t then (gridEmbed table side hidden h w).tile t else gridEmbed table side hidden h w).get [f * (h * w) + (r * w + c), j] =
      cellEmbed table side h w r c j := by
  have shape : (gridEmbed table side hidden h w).shape = [h * w, hidden] := by
    simp only [gridEmbed, NdArray.zip, corner, length_perCell]
  split
  · rw [NdArray.get_tile shape (digit_lt row col) feature, get_gridEmbed row col feature]
  · obtain rfl : f = 0 := by omega
    rw [Nat.zero_mul, Nat.zero_add, get_gridEmbed row col feature]

/-- The rows of one image. -/
theorem imageEmbed_rows (table : NdArray K) (side hidden : Nat) {g : ImageGrid} (frames : 0 < g.t) (blocks : g.Blocks merge) :
    ∃ out, imageEmbed table side hidden merge g = .ok out ∧
      ByPatch merge hidden g (fun row col j => cellEmbed table side g.h g.w row col j) out := by
  have rows := ImageGrid.prod_axes blocks
  obtain ⟨t, h, w⟩ := g
  have high := Nat.div_mul_cancel blocks.1
  have wide := Nat.div_mul_cancel blocks.2
  simp only [ByPatch, rows, inside_axes]
  clear rows
  simp only [imageEmbed, ImageGrid.axes] at high wide frames ⊢
  generalize h / merge = mh at high ⊢
  generalize w / merge = mw at wide ⊢
  generalize framesEq : (if 1 < t then (gridEmbed table side hidden h w).tile t else gridEmbed table side hidden h w) = pe
  have size : pe.shape = [t * (h * w), hidden] := by
    rw [← framesEq]
    split
    · simp only [NdArray.tile, NdArray.dim, gridEmbed, NdArray.zip, corner, length_perCell, List.getD_cons_zero, List.tail_cons]
    · obtain rfl : t = 1 := by omega
      simp only [gridEmbed, NdArray.zip, corner, length_perCell, Nat.one_mul]
  let cut : NdArray K := ⟨[t, mh, merge, mw, merge, hidden], pe.flat⟩
  have first : pe.reshape [t, mh, merge, mw, merge, hidden] = .ok cut := by
    refine NdArray.reshape_ok ?_
    rw [size]
    simp only [List.prod_cons, List.prod_nil, ← high, ← wide]
    ring
  have axes : [0, 1, 3, 2, 4, 5].map cut.dim = [t, mh, mw, merge, merge, hidden] := by simp [cut, NdArray.dim]
  have second : (cut.transpose [0, 1, 3, 2, 4, 5]).reshape [t * (h * w), hidden] =
      .ok ⟨[t * (h * w), hidden], (cut.transpose [0, 1, 3, 2, 4, 5]).flat⟩ := by
    refine NdArray.reshape_ok ?_
    rw [NdArray.transpose, axes]
    simp only [List.prod_cons, List.prod_nil, ← high, ← wide]
    ring
  refine ⟨⟨[t * (h * w), hidden], (cut.transpose [0, 1, 3, 2, 4, 5]).flat⟩, ?_, rfl, ?_⟩
  · rw [first, ok_bind, second]
  · rintro index j ⟨f, hf, br, hbr, bc, hbc, ir, hir, ic, hic, rfl⟩ feature
    have row : br * merge + ir < h := (digit_lt hbr hir).trans_eq high
    have col : bc * merge + ic < w := (digit_lt hbc hic).trans_eq wide
    have permuted : Inside [t, mh, mw, merge, merge, hidden] [f, br, bc, ir, ic, j] :=
      .cons hf (.cons hbr (.cons hbc (.cons hir (.cons hic (.cons feature .nil)))))
    calc (cut.transpose [0, 1, 3, 2, 4, 5]).flat
          (ravel [t * (h * w), hidden] [ravel [t, mh, mw, merge, merge] [f, br, bc, ir, ic], j])
      _ = (cut.transpose [0, 1, 3, 2, 4, 5]).get [f, br, bc, ir, ic, j] := by
        rw [NdArray.get]
        refine congrArg _ ?_
        rw [NdArray.transpose, axes]
        simp only [ravel, List.prod_cons, List.prod_nil]
        ring
      _ = cut.get [f, br, ir, bc, ic, j] := by
        rw [NdArray.get_transpose (by rwa [axes])]
        rfl
      _ = pe.get [f * (h * w) + ((br * merge + ir) * w + (bc * merge + ic)), j] := by
        rw [NdArray.get, NdArray.get, size]
        refine congrArg pe.flat ?_
        simp only [cut, ravel, List.prod_cons, List.prod_nil, ← high, ← wide]
        ring
      _ = cellEmbed table side h w (br * merge + ir) (bc * merge + ic) j := by
        rw [← framesEq, get_frames hf row col feature]

/-- Row `r` of the embeddings belongs to patch `r` of the order. -/
theorem posEmbed_rows (table : NdArray K) (numPositionEmbeddings hidden : Nat) {grids : List ImageGrid} (some : grids ≠ []) (frames : ∀ g ∈ grids, 0 < g.t)
    (blocks : ∀ g ∈ grids, g.Blocks merge) :
    ∃ out, posEmbed table numPositionEmbeddings hidden merge grids = .ok out ∧
      out.shape = [(patchOrder merge grids).length, hidden] ∧
      ∀ (r : Nat) p, (patchOrder merge grids)[r]? = .some p → ∃ g, grids[p.image]? = .some g ∧
        ∀ j < hidden, out.get [r, j] = cellEmbed table (tableSide numPositionEmbeddings) g.h g.w p.row p.col j := by
  obtain ⟨perImage, run, each⟩ := mapM_forall₂ fun g (mem : g ∈ grids) =>
    imageEmbed_rows table (tableSide numPositionEmbeddings) hidden (frames g mem) (blocks g mem)
  obtain ⟨out, stacked, shape, rows⟩ := concatenate_byPatch id each some
  rw [List.map_id] at shape rows
  refine ⟨out, ?_, shape, rows⟩
  rw [posEmbed]
  simp only [run, ok_bind, stacked]

end Mlxforge
