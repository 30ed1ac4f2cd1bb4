import Mlxforge.Model.SkinnyScalar

/-!
The tile kernel computes the columns of its tiles.
-/

namespace Mlxforge

open Finset

variable {R : Type} [CommSemiring R] {a : Operands R} {p : TileArgs}

/-- The template arguments that the kernel is written for. -/
structure TileArgs.Suits {R : Type} (p : TileArgs) (a : Operands R) : Prop where
  rows : a.M ≤ p.MT * 8
  columns : 8 ≤ a.O
  chunks : p.chunk ∣ a.D
  chunk : 0 < p.chunk
  unrolled : 8 * p.UN ∣ p.chunk
  groups : 0 < p.SG

/-- A row of `x`, or zeros past the last one. -/
def Operands.xPad (a : Operands R) (m k : Nat) : R := if m < a.M then a.xAt m k else 0

/-! ### Staging -/

/-- What is staged at place `i` of the chunk at `kc`. -/
def stagedQuad (a : Operands R) (p : TileArgs) (kc i : Nat) : Half4 R :=
  quad (fun e => a.xPad (i / (p.chunk / 4)) (kc + e)) (i % (p.chunk / 4))

omit [CommSemiring R] in
theorem TileArgs.Suits.quarter (suits : p.Suits a) : p.chunk = 4 * (p.chunk / 4) := by
  obtain ⟨b, chunk⟩ := suits.unrolled
  rw [Nat.mul_assoc] at chunk
  omega

theorem stageWrites_ok (fits : a.Fits) (suits : p.Suits a) {kc : Nat} (room : kc + p.chunk ≤ a.D) (tid : Nat) :
    stageWrites a p kc tid =
      .ok ((steps tid (p.MT * 8 * p.chunk / 4) (32 * p.SG)).map fun i => (i, some (stagedQuad a p kc i))) := by
  refine mapM_ok fun i _ => ?_
  have quarter := suits.quarter
  have positive := suits.chunk
  have col : i % (p.chunk / 4) < p.chunk / 4 := Nat.mod_lt _ (by omega)
  simp only
  by_cases row : i / (p.chunk / 4) < a.M
  · have inside := digit_lt (x := kc + 4 * (i % (p.chunk / 4)) + 3) row (by omega : _ < a.D)
    rw [if_pos row, loadHalf4_ok (by rw [fits.x]; omega), ok_bind]
    simp only [stagedQuad, quad, Operands.xPad, Operands.xAt, row, if_true, Nat.add_assoc]
    rfl
  · rw [if_neg row]
    simp only [stagedQuad, quad, Operands.xPad, row, if_false]
    rfl

/-- The whole chunk is staged. -/
theorem stageChunk_ok (fits : a.Fits) (suits : p.Suits a) {kc : Nat} (room : kc + p.chunk ≤ a.D) :
    ∃ xs, stageChunk a p p.SG kc = .ok xs ∧
      ∀ i < p.MT * 8 * p.chunk / 4, xs[i]? = some (some (stagedQuad a p kc i)) := by
  refine ⟨_, by rw [stageChunk, mapM_ok fun tid _ => stageWrites_ok fits suits room tid]; rfl, ?_⟩
  intro i below
  refine store_getElem?_agree (f := fun i => some (stagedQuad a p kc i)) ?_ ?_ (by rwa [List.length_replicate])
  · intro write mem
    obtain ⟨writes, listed, mem⟩ := List.mem_flatten.mp mem
    obtain ⟨tid, _, rfl⟩ := List.mem_map.mp listed
    obtain ⟨i, _, rfl⟩ := List.mem_map.mp mem
    rfl
  · have threads : 0 < 32 * p.SG := Nat.mul_pos (by decide) suits.groups
    have tid : i % (32 * p.SG) < 32 * p.SG := Nat.mod_lt _ threads
    obtain ⟨sg, simdgroup, lane, inGroup, place⟩ := place_of_lt (Nat.mul_comm 32 p.SG ▸ tid)
    have thread : i % (32 * p.SG) ∈ (List.range p.SG).flatMap fun sg => (List.range 32).map fun lane => sg * 32 + lane := by
      rw [List.mem_flatMap]
      refine ⟨sg, List.mem_range.mpr simdgroup, List.mem_map.mpr ⟨lane, List.mem_range.mpr inGroup, ?_⟩⟩
      rw [Nat.mul_comm 32]
      exact place.symm
    have write : (i, some (stagedQuad a p kc i)) ∈
        (steps (i % (32 * p.SG)) (p.MT * 8 * p.chunk / 4) (32 * p.SG)).map fun i => (i, some (stagedQuad a p kc i)) :=
      List.mem_map_of_mem (mem_steps_mod threads below)
    have listed : (i, some (stagedQuad a p kc i)) ∈ (((List.range p.SG).flatMap fun sg => (List.range 32).map fun lane =>
        sg * 32 + lane).map fun tid => (steps tid (p.MT * 8 * p.chunk / 4) (32 * p.SG)).map fun i =>
          (i, some (stagedQuad a p kc i))).flatten := List.mem_flatten.mpr ⟨_, List.mem_map_of_mem thread, write⟩
    exact List.mem_map_of_mem (f := Prod.fst) listed

omit [CommSemiring R] in
theorem quad_entry (f : Nat → R) (k : Nat) {r : Nat} (below : r < 4) : (quad f k).entry r = f (4 * k + r) := by
  interval_cases r <;> rfl

theorem loadStaged_ok (suits : p.Suits a) {kc : Nat} {xs : List (Option (Half4 R))}
    (staged : ∀ i < p.MT * 8 * p.chunk / 4, xs[i]? = some (some (stagedQuad a p kc i))) {m j : Nat} (row : m < p.MT * 8)
    (col : j < p.chunk) : loadStaged xs (m * p.chunk + j) = .ok (a.xPad m (kc + j)) := by
  have quarter := suits.quarter
  have inside := digit_lt row col
  have below : (m * p.chunk + j) / 4 < p.MT * 8 * p.chunk / 4 := by
    have : 4 ∣ p.MT * 8 * p.chunk := (Dvd.intro _ quarter.symm).mul_left _
    omega
  have block : (m * p.chunk + j) / 4 / (p.chunk / 4) = m := by
    rw [Nat.div_div_eq_div_mul, ← quarter, (divMod_add col).1]
  have place : 4 * ((m * p.chunk + j) / 4 % (p.chunk / 4)) + (m * p.chunk + j) % 4 = j := by
    rw [Nat.add_comm, ← Nat.mod_mul, ← quarter, (divMod_add col).2]
  rw [loadStaged, staged _ below]
  simp only [stagedQuad]
  rw [quad_entry _ _ (Nat.mod_lt _ (by decide)), block, place]

/-! ### The accumulators -/

theorem simdgroupLoad_ok {read : Nat → Except KernelFault R} {base stride : Nat} {f : Nat → Nat → R}
    (each : ∀ r < 8, ∀ c < 8, read (base + r * stride + c) = .ok (f r c)) (transposed : Bool) :
    simdgroupLoad read base stride transposed = .ok (Matrix.of fun i j => if transposed then f j i else f i j) := by
  have rows : ((List.range 8).mapM fun r => (List.range 8).mapM fun c => read (base + r * stride + c)) =
      .ok ((List.range 8).map fun r => (List.range 8).map fun c => f r c) :=
    mapM_ok fun r row => mapM_ok fun c col => each r (List.mem_range.mp row) c (List.mem_range.mp col)
  have entry : ∀ i j : Fin 8, (((List.range 8).map fun r => (List.range 8).map fun c => f r c).getD i []).getD j 0 = f i j := by
    intro i j
    simp only [List.getD_eq_getElem?_getD, List.getElem?_map, List.getElem?_range i.isLt, List.getElem?_range j.isLt,
      Option.map_some, Option.getD_some]
  rw [simdgroupLoad, rows, ok_bind]
  simp only [entry]
  rfl

/-- Eight products of row `i` of the tile and row `t * 8 + j` of `x`, from element `e`. -/
def eightProducts (a : Operands R) (o0 t e : Nat) (i j : Fin 8) : R :=
  ∑ s ∈ range 8, a.wAt (o0 + i) (e + s) * a.xPad (t * 8 + j) (e + s)

theorem load_w (fits : a.Fits) {o k : Nat} (row : o < a.O) (col : k < a.D) : load a.w (o * a.D + k) = .ok (a.wAt o k) := by
  have inside := digit_lt row col
  exact load_ok (by rwa [fits.w])

/-- What one chunk adds to the accumulators. -/
theorem tileChunk_ok (fits : a.Fits) (suits : p.Suits a) {kc o0 : Nat} (room : kc + p.chunk ≤ a.D) (tile : o0 + 8 ≤ a.O)
    (s : Nat → Fin 8 → Fin 8 → R) :
    tileChunk a p p.SG o0 ((List.range p.MT).map fun t => Matrix.of (s t)) kc =
      .ok ((List.range p.MT).map fun t => Matrix.of (s t + ((steps 0 p.chunk (8 * p.UN)).map fun k =>
        ((List.range p.UN).map fun u => eightProducts a o0 t (kc + k + u * 8)).sum).sum)) := by
  obtain ⟨xs, staged, held⟩ := stageChunk_ok fits suits room
  have blocks : ∀ k ∈ steps 0 p.chunk (8 * p.UN), k + 8 * p.UN ≤ p.chunk := by
    intro k mem
    obtain ⟨b, chunk⟩ := suits.unrolled
    have positive : 0 < 8 * p.UN := by
      rcases Nat.eq_zero_or_pos (8 * p.UN) with zero | positive
      · have := suits.chunk
        rw [chunk, zero, Nat.zero_mul] at this
        omega
      · exact positive
    rw [chunk, steps_zero positive] at mem
    obtain ⟨t, below, rfl⟩ := List.mem_map.mp mem
    rw [chunk, ← Nat.mul_succ]
    exact Nat.mul_le_mul_left _ (List.mem_range.mp below)
  rw [tileChunk, staged, ok_bind]
  refine (foldlM_accumulate (fun s : Nat → Fin 8 → Fin 8 → R => (List.range p.MT).map fun t => Matrix.of (s t))
    (fun k t => ((List.range p.UN).map fun u => eightProducts a o0 t (kc + k + u * 8)).sum) ?_ s).trans
      (congrArg Except.ok ?_)
  · intro s k mem
    have within := blocks k mem
    have weights : ((List.range p.UN).mapM fun u => simdgroupLoad (load a.w) (o0 * a.D + kc + k + u * 8) a.D false) =
        .ok ((List.range p.UN).map fun u => Matrix.of fun i j : Fin 8 => a.wAt (o0 + i) (kc + k + u * 8 + j)) := by
      refine mapM_ok fun u mem => ?_
      have below := List.mem_range.mp mem
      refine simdgroupLoad_ok (f := fun r c => a.wAt (o0 + r) (kc + k + u * 8 + c)) (fun r row c col => ?_) false
      rw [← load_w fits (by omega) (by omega)]
      congr 1
      ring
    rw [weights, ok_bind]
    refine mapM_ok fun t mem => ?_
    have row := List.mem_range.mp mem
    have start : ((List.range p.MT).map fun t => Matrix.of (s t)).getD t 0 = Matrix.of (s t) := by
      simp only [List.getD_eq_getElem?_getD, List.getElem?_map, List.getElem?_range row, Option.map_some, Option.getD_some]
    rw [start]
    refine foldlM_accumulate (fun s : Fin 8 → Fin 8 → R => Matrix.of s) (fun u => eightProducts a o0 t (kc + k + u * 8)) ?_ (s t)
    intro s u mem
    have below := List.mem_range.mp mem
    have tile : simdgroupLoad (loadStaged xs) (t * 8 * p.chunk + k + u * 8) p.chunk true =
        .ok (Matrix.of fun i j : Fin 8 => a.xPad (t * 8 + j) (kc + (k + u * 8 + i))) := by
      refine simdgroupLoad_ok (f := fun r c => a.xPad (t * 8 + r) (kc + (k + u * 8 + c))) (fun r inRow c inCol => ?_) true
      rw [← loadStaged_ok suits held (by omega) (by omega)]
      congr 1
      ring
    have weight : ((List.range p.UN).map fun u => Matrix.of fun i j : Fin 8 => a.wAt (o0 + i) (kc + k + u * 8 + j)).getD u 0 =
        Matrix.of fun i j : Fin 8 => a.wAt (o0 + i) (kc + k + u * 8 + j) := by
      simp only [List.getD_eq_getElem?_getD, List.getElem?_map, List.getElem?_range below, Option.map_some, Option.getD_some]
    rw [tile, ok_bind, weight]
    refine congrArg Except.ok (Matrix.ext fun i j => ?_)
    rw [Matrix.add_apply, Matrix.mul_apply, add_comm]
    refine congrArg (s i j + ·) ?_
    rw [eightProducts, ← Fin.sum_univ_eq_sum_range (fun e => a.wAt (o0 + i) (kc + k + u * 8 + e) * _) 8]
    refine sum_congr rfl fun e _ => ?_
    simp only [Matrix.of_apply, Nat.add_assoc]
  · refine List.map_congr_left fun t _ => ?_
    rw [Pi.add_apply, Pi.list_sum_apply, List.map_map]
    rfl

/-- Row `i` of a tile times row `t * 8 + j` of `x`. -/
theorem sum_eightProducts (suits : p.Suits a) (o0 t : Nat) (i j : Fin 8) :
    ((steps 0 a.D p.chunk).map fun kc => ((steps 0 p.chunk (8 * p.UN)).map fun k =>
        ((List.range p.UN).map fun u => eightProducts a o0 t (kc + k + u * 8) i j).sum).sum).sum =
      ∑ k ∈ range a.D, a.wAt (o0 + i) k * a.xPad (t * 8 + j) k := by
  obtain ⟨Q, wide⟩ := suits.chunks
  obtain ⟨B, chunk⟩ := suits.unrolled
  have positive : 0 < 8 * p.UN := by
    have := suits.chunk
    rw [chunk] at this
    exact Nat.pos_of_mul_pos_right this
  rw [wide, steps_zero suits.chunk, ← sum_blocks, List.map_map, list_sum_range]
  refine sum_congr rfl fun q _ => ?_
  rw [Function.comp_apply, chunk, steps_zero positive, ← sum_blocks, List.map_map, list_sum_range]
  refine sum_congr rfl fun b _ => ?_
  rw [Function.comp_apply, ← sum_blocks, list_sum_range]
  refine sum_congr rfl fun u _ => ?_
  rw [eightProducts]
  refine sum_congr rfl fun e _ => ?_
  have place : 8 * p.UN * B * q + 8 * p.UN * b + u * 8 + e = 8 * p.UN * B * q + (8 * p.UN * b + (8 * u + e)) := by ring
  rw [place]

/-- The accumulators of a tile at the end. -/
def tileProducts (a : Operands R) (o0 t : Nat) : Matrix (Fin 8) (Fin 8) R :=
  Matrix.of fun i j => ∑ k ∈ range a.D, a.wAt (o0 + i) k * a.xPad (t * 8 + j) k

theorem tile_accumulators (fits : a.Fits) (suits : p.Suits a) {o0 : Nat} (tile : o0 + 8 ≤ a.O) :
    (steps 0 a.D p.chunk).foldlM (tileChunk a p p.SG o0) ((List.range p.MT).map fun _ => 0) =
      .ok ((List.range p.MT).map (tileProducts a o0)) := by
  refine (foldlM_accumulate (fun s : Nat → Fin 8 → Fin 8 → R => (List.range p.MT).map fun t => Matrix.of (s t))
    (fun kc t => ((steps 0 p.chunk (8 * p.UN)).map fun k =>
      ((List.range p.UN).map fun u => eightProducts a o0 t (kc + k + u * 8)).sum).sum) ?_ 0).trans (congrArg Except.ok ?_)
  · intro s kc mem
    refine tileChunk_ok fits suits ?_ tile s
    obtain ⟨Q, wide⟩ := suits.chunks
    rw [wide, steps_zero suits.chunk] at mem
    obtain ⟨q, below, rfl⟩ := List.mem_map.mp mem
    rw [wide, ← Nat.mul_succ]
    exact Nat.mul_le_mul_left _ (List.mem_range.mp below)
  · refine List.map_congr_left fun t _ => Matrix.ext fun i j => ?_
    rw [tileProducts, Matrix.of_apply, Matrix.of_apply, ← sum_eightProducts suits, zero_add]
    simp only [Pi.list_sum_apply, List.map_map, Function.comp_def]

/-! ### The stores -/

omit [CommSemiring R] in
theorem simdgroupStore_getD (acc : Matrix (Fin 8) (Fin 8) R) (d : R) {i : Nat} (below : i < 64) :
    (simdgroupStore acc).getD i d = acc ⟨i / 8, by omega⟩ ⟨i % 8, by omega⟩ := by
  have split : i = i / 8 * 8 + i % 8 := by omega
  have row : (List.finRange 8)[i / 8]? = some ⟨i / 8, by omega⟩ := by
    rw [List.getElem?_eq_getElem (by simp; omega)]
    simp
  have col : (List.finRange 8)[i % 8]? = some ⟨i % 8, by omega⟩ := by
    rw [List.getElem?_eq_getElem (by simp; omega)]
    simp
  rw [List.getD_eq_getElem?_getD, simdgroupStore]
  conv_lhs => rw [split]
  rw [getElem?_flatMap_rows (fun i => by simp) (i / 8) (by omega : i % 8 < 8), row, Option.bind_some, List.getElem?_map, col]
  rfl

/-- The stores of a tile are dot products, and fill its eight columns. -/
structure TileFilled (a : Operands R) (o0 : Nat) (stores : List (Nat × R)) : Prop where
  exact : a.Exact stores
  filled : ∀ m < a.M, ∀ c < 8, (m * a.O + (o0 + c), a.dotRow m (o0 + c)) ∈ stores

theorem tileProducts_eq {o0 t i : Nat} (below : i < 64) (row : t * 8 + i % 8 < a.M) :
    tileProducts a o0 t ⟨i / 8, by omega⟩ ⟨i % 8, by omega⟩ = a.dotRow (t * 8 + i % 8) (o0 + i / 8) := by
  rw [tileProducts, Matrix.of_apply, Operands.dotRow]
  refine sum_congr rfl fun k _ => ?_
  rw [Operands.xPad, if_pos row, mul_comm]

theorem accumulator_getD {o0 t : Nat} (below : t < p.MT) :
    ((List.range p.MT).map (tileProducts a o0)).getD t 0 = tileProducts a o0 t := by
  simp only [List.getD_eq_getElem?_getD, List.getElem?_map, List.getElem?_range below, Option.map_some, Option.getD_some]

theorem mmaTile_ok (fits : a.Fits) (suits : p.Suits a) (oTile : Nat) :
    ∃ stores, mmaTile a p p.SG oTile = .ok stores ∧ TileFilled a (min (oTile * 8) (a.O - 8)) stores := by
  have columns := suits.columns
  have tile : min (oTile * 8) (a.O - 8) + 8 ≤ a.O := by omega
  generalize start : min (oTile * 8) (a.O - 8) = o0 at tile
  refine ⟨_, by rw [mmaTile, start, tile_accumulators fits suits tile]; rfl, ?_, ?_⟩
  · intro s mem
    obtain ⟨t, inTiles, mem⟩ := List.mem_flatMap.mp mem
    obtain ⟨lane, _, mem⟩ := List.mem_flatMap.mp mem
    obtain ⟨i, visited, mem⟩ := List.mem_flatMap.mp mem
    have below := lt_of_mem_steps (by decide) visited
    simp only at mem
    split at mem
    next row =>
      obtain rfl := List.mem_singleton.mp mem
      refine ⟨t * 8 + i % 8, row, o0 + i / 8, by omega, ?_⟩
      rw [accumulator_getD (List.mem_range.mp inTiles), simdgroupStore_getD _ _ below, tileProducts_eq below row, Nat.add_assoc]
    · cases mem
  · intro m row c col
    have suited := suits.rows
    have split : m / 8 * 8 + m % 8 = m := Nat.div_add_mod' m 8
    have below : c * 8 + m % 8 < 64 := by omega
    have place : (c * 8 + m % 8) % 8 = m % 8 ∧ (c * 8 + m % 8) / 8 = c := by omega
    refine List.mem_flatMap.mpr ⟨m / 8, List.mem_range.mpr (by omega), ?_⟩
    refine List.mem_flatMap.mpr ⟨(c * 8 + m % 8) % 32, List.mem_range.mpr (Nat.mod_lt _ (by decide)), ?_⟩
    refine List.mem_flatMap.mpr ⟨c * 8 + m % 8, mem_steps_mod (by decide) below, ?_⟩
    rw [accumulator_getD (by omega), simdgroupStore_getD _ _ below]
    have inRows : m / 8 * 8 + (c * 8 + m % 8) % 8 < a.M := by omega
    rw [if_pos inRows, tileProducts_eq below inRows, place.1, place.2, split, Nat.add_assoc]
    exact List.mem_singleton_self _

/-- All the tiles of a grid of whole threadgroups. -/
theorem mma_ok (fits : a.Fits) (suits : p.Suits a) (groups : Nat) :
    ∃ stores, mma a p (groups * p.SG) = .ok stores ∧ a.Exact stores ∧
      ∀ oTile < groups * p.SG, ∀ m < a.M, ∀ c < 8,
        (m * a.O + (min (oTile * 8) (a.O - 8) + c), a.dotRow m (min (oTile * 8) (a.O - 8) + c)) ∈ stores := by
  have positive := suits.groups
  have count : (groups * p.SG + p.SG - 1) / p.SG = groups := by
    rw [Nat.add_sub_assoc positive, Nat.mul_comm, Nat.mul_add_div positive, Nat.div_eq_of_lt (by omega), Nat.add_zero]
  have group : ∀ g ∈ List.range groups, ∃ stores, (do
      let sgs := min p.SG (groups * p.SG - g * p.SG)
      let stores ← (List.range sgs).mapM fun sg => mmaTile a p sgs (g * p.SG + sg)
      return stores.flatten) = (.ok stores : Except KernelFault (List (Nat × R))) ∧
      (a.Exact stores ∧ ∀ sg < p.SG, ∀ m < a.M, ∀ c < 8, (m * a.O + (min ((g * p.SG + sg) * 8) (a.O - 8) + c),
        a.dotRow m (min ((g * p.SG + sg) * 8) (a.O - 8) + c)) ∈ stores) := by
    intro g mem
    have full : min p.SG (groups * p.SG - g * p.SG) = p.SG := by
      rw [← Nat.mul_sub_right_distrib]
      have := Nat.mul_le_mul_right p.SG (Nat.sub_pos_of_lt (List.mem_range.mp mem))
      omega
    obtain ⟨tiles, run, each⟩ := mapM_forall₂ fun sg (_ : sg ∈ List.range p.SG) => mmaTile_ok fits suits (g * p.SG + sg)
    have parts := each.imp fun _ _ filled => And.intro filled.exact filled.filled
    refine ⟨tiles.flatten, by simp only [full]; rw [run]; rfl, Operands.exact_flatten parts, ?_⟩
    intro sg below m row c col
    obtain ⟨stores, listed, filled⟩ := exists_of_forall₂_left each (List.mem_range.mpr below)
    exact List.mem_flatten.mpr ⟨stores, listed, filled.filled m row c col⟩
  obtain ⟨parts, run, each⟩ := mapM_forall₂ group
  refine ⟨parts.flatten, by rw [mma, count, run]; rfl, Operands.exact_flatten each, ?_⟩
  intro oTile below m row c col
  obtain ⟨g, inGroups, sg, inGroup, rfl⟩ := place_of_lt below
  obtain ⟨stores, listed, _, filled⟩ := exists_of_forall₂_left each (List.mem_range.mpr inGroups)
  exact List.mem_flatten.mpr ⟨stores, listed, filled sg inGroup m row c col⟩

/-- The tiles that are launched fill every column. -/
theorem mma_computes (fits : a.Fits) (suits : p.Suits a) (groups : Nat) (all : a.O ≤ groups * p.SG * 8) :
    ∃ stores, mma a p (groups * p.SG) = .ok stores ∧ a.Exact stores ∧
      ∀ m < a.M, ∀ o < a.O, (m * a.O + o, a.dotRow m o) ∈ stores := by
  have columns := suits.columns
  obtain ⟨stores, run, exact, filled⟩ := mma_ok fits suits groups
  refine ⟨stores, run, exact, fun m row o col => ?_⟩
  have tile := filled (o / 8) (by omega) m row (o - min (o / 8 * 8) (a.O - 8)) (by omega)
  rwa [Nat.add_sub_cancel' (by omega)] at tile

end Mlxforge
