import Mathlib.Data.Matrix.Mul
import Mlxforge.Lib.Except
import Mlxforge.Lib.Stores
import Mlxforge.Lib.StridedLoops

/-!
The matrix products `y = x * wᵀ` with few rows, in exact arithmetic: three GPU kernels and their dispatch. A kernel is run
to the stores that it makes; a read outside an array, or of threadgroup memory that nothing was stored to, is a fault.
-/

namespace Mlxforge

inductive KernelFault
  | outOfBounds
  | uninitialized
  deriving DecidableEq, Repr

variable {R : Type}

/-! ### Memory -/

/-- Four neighbouring elements. -/
structure Half4 (R : Type) where
  x : R
  y : R
  z : R
  w : R

namespace Half4

def zero [Zero R] : Half4 R := ⟨0, 0, 0, 0⟩

def dot [Add R] [Mul R] (w x : Half4 R) : R := w.x * x.x + w.y * x.y + w.z * x.z + w.w * x.w

def entry (q : Half4 R) : Nat → R
  | 0 => q.x
  | 1 => q.y
  | 2 => q.z
  | _ => q.w

end Half4

def load (a : List R) (i : Nat) : Except KernelFault R :=
  match a[i]? with
  | some v => .ok v
  | none => .error .outOfBounds

/-- `((const device half4*)(a + base))[k]`. -/
def loadHalf4 (a : List R) (base k : Nat) : Except KernelFault (Half4 R) := do
  let x ← load a (base + 4 * k)
  let y ← load a (base + 4 * k + 1)
  let z ← load a (base + 4 * k + 2)
  let w ← load a (base + 4 * k + 3)
  return ⟨x, y, z, w⟩

/-- Element `e` of threadgroup memory that is stored to by fours. -/
def loadStaged (xs : List (Option (Half4 R))) (e : Nat) : Except KernelFault R :=
  match xs[e / 4]? with
  | some (some q) => .ok (q.entry (e % 4))
  | some none => .error .uninitialized
  | none => .error .outOfBounds

/-! ### Arrays -/

inductive TensorDtype
  | float16
  | bfloat16
  | float32
  | other
  deriving DecidableEq, Repr

structure HalfTensor (R : Type) where
  dtype : TensorDtype
  shape : List Nat
  data : List R
  size : data.length = shape.prod

namespace HalfTensor

def dim (a : HalfTensor R) (axis : Nat) : Nat := a.shape.getD axis 0

end HalfTensor

def isBigWeight (w : HalfTensor R) : Bool := 32 * 1024 * 1024 ≤ w.dim 0 * w.dim 1

def skinnyMatmulApplies (x w : HalfTensor R) : Bool :=
  if x.dtype ≠ .float16 ∨ w.dtype ≠ .float16 then false
  else if w.shape.length ≠ 2 ∨ w.dim 1 % 128 ≠ 0 then false
  else if x.shape.length = 3 ∧ x.dim 1 ≠ 1 then false
  else if x.shape.length ≠ 2 ∧ x.shape.length ≠ 3 then false
  else if x.dim 0 < 2 ∨ x.dim (x.shape.length - 1) ≠ w.dim 1 then false
  else if x.dim 0 ≤ 16 then true
  else x.dim 0 ≤ 32 && 8 ≤ w.dim 0 && isBigWeight w

variable [CommSemiring R]

/-- The operands: `x` of `M` rows and `w` of `O` rows, both `D` wide. -/
structure Operands (R : Type) where
  M : Nat
  O : Nat
  D : Nat
  x : List R
  w : List R

/-! ### One and two output columns a simdgroup -/

/-- The accumulators of a lane, by row and output column. -/
def laneSums (a : Operands R) (cols : List Nat) (lane : Nat) : Except KernelFault (List (List R)) :=
  (steps lane (a.D / 4) 32).foldlM (fun acc k => do
    let wv ← cols.mapM fun o => loadHalf4 a.w (o * a.D) k
    (List.range a.M).mapM fun m => do
      let xv ← loadHalf4 a.x (m * a.D) k
      return List.zipWith (fun s v => s + v.dot xv) (acc.getD m []) wv)
    ((List.range a.M).map fun _ => cols.map fun _ => 0)

/-- `simd_sum` of the accumulators of row `m` and column `c`. -/
def simdSum (lanes : List (List (List R))) (m c : Nat) : R := (lanes.map fun acc => (acc.getD m []).getD c 0).sum

/-- `kSourceOneCol` at output column `o`. -/
def oneCol (a : Operands R) (o : Nat) : Except KernelFault (List (Nat × R)) := do
  let lanes ← (List.range 32).mapM (laneSums a [o])
  return (List.range a.M).map fun m => (m * a.O + o, simdSum lanes m 0)

/-- `kSourceTwoCol` at a pair of output columns; the last pair may have one. -/
def twoCol (a : Operands R) (pair : Nat) : Except KernelFault (List (Nat × R)) := do
  let o0 := pair * 2
  let o1 := o0 + 1
  let lanes ← (List.range 32).mapM (laneSums a [o0, if o1 < a.O then o1 else o0])
  return (List.range a.M).flatMap fun m =>
    (m * a.O + o0, simdSum lanes m 0) :: if o1 < a.O then [(m * a.O + o1, simdSum lanes m 1)] else []

/-! ### Tiles of eight output columns -/

/-- The template arguments of the tile kernel. -/
structure TileArgs where
  MT : Nat
  chunk : Nat
  UN : Nat
  SG : Nat

/-- The stores that thread `tid` makes to stage the chunk of `x` at `kc`: rows past `M` are zero. -/
def stageWrites (a : Operands R) (p : TileArgs) (kc tid : Nat) : Except KernelFault (List (Nat × Option (Half4 R))) :=
  (steps tid (p.MT * 8 * p.chunk / 4) (32 * p.SG)).mapM fun i => do
    let m := i / (p.chunk / 4)
    let j := i % (p.chunk / 4)
    let v ← if m < a.M then loadHalf4 a.x (m * a.D + kc) j else pure .zero
    return (i, some v)

/-- The staged chunk, once the threads of `sgs` simdgroups have passed the barrier. -/
def stageChunk (a : Operands R) (p : TileArgs) (sgs kc : Nat) : Except KernelFault (List (Option (Half4 R))) := do
  let threads := (List.range sgs).flatMap fun sg => (List.range 32).map fun lane => sg * 32 + lane
  let writes ← threads.mapM (stageWrites a p kc)
  return store (List.replicate (p.MT * 8 * p.chunk / 4) none) writes.flatten

/-- `simdgroup_load` of an 8x8 matrix. -/
def simdgroupLoad (read : Nat → Except KernelFault R) (base stride : Nat) (transposed : Bool) :
    Except KernelFault (Matrix (Fin 8) (Fin 8) R) := do
  let rows ← (List.range 8).mapM fun r => (List.range 8).mapM fun c => read (base + r * stride + c)
  return Matrix.of fun i j =>
    if transposed then (rows.getD j []).getD i 0 else (rows.getD i []).getD j 0

/-- `simdgroup_store` to 64 elements. -/
def simdgroupStore (acc : Matrix (Fin 8) (Fin 8) R) : List R :=
  (List.finRange 8).flatMap fun i => (List.finRange 8).map fun j => acc i j

/-- The accumulators of a simdgroup after the chunk at `kc`. -/
def tileChunk (a : Operands R) (p : TileArgs) (sgs o0 : Nat) (acc : List (Matrix (Fin 8) (Fin 8) R)) (kc : Nat) :
    Except KernelFault (List (Matrix (Fin 8) (Fin 8) R)) := do
  let xs ← stageChunk a p sgs kc
  (steps 0 p.chunk (8 * p.UN)).foldlM (fun acc k => do
    let wt ← (List.range p.UN).mapM fun u => simdgroupLoad (load a.w) (o0 * a.D + kc + k + u * 8) a.D false
    (List.range p.MT).mapM fun t =>
      (List.range p.UN).foldlM (fun s u => do
        let xt ← simdgroupLoad (loadStaged xs) (t * 8 * p.chunk + k + u * 8) p.chunk true
        return wt.getD u 0 * xt + s) (acc.getD t 0)) acc

/-- `kSourceMma` at a tile of output columns; `sgs` simdgroups share the staged chunk. -/
def mmaTile (a : Operands R) (p : TileArgs) (sgs oTile : Nat) : Except KernelFault (List (Nat × R)) := do
  let o0 := min (oTile * 8) (a.O - 8)
  let acc ← (steps 0 a.D p.chunk).foldlM (tileChunk a p sgs o0) ((List.range p.MT).map fun _ => 0)
  return (List.range p.MT).flatMap fun t =>
    let scratch := simdgroupStore (acc.getD t 0)
    (List.range 32).flatMap fun lane => (steps lane 64 32).flatMap fun i =>
      let m := t * 8 + i % 8
      if m < a.M then [(m * a.O + o0 + i / 8, scratch.getD i 0)] else []

/-- The simdgroups of a grid of `tiles` in threadgroups of `SG`. -/
def mma (a : Operands R) (p : TileArgs) (tiles : Nat) : Except KernelFault (List (Nat × R)) := do
  let stores ← (List.range ((tiles + p.SG - 1) / p.SG)).mapM fun g => do
    let sgs := min p.SG (tiles - g * p.SG)
    let stores ← (List.range sgs).mapM fun sg => mmaTile a p sgs (g * p.SG + sg)
    return stores.flatten
  return stores.flatten

/-! ### Dispatch -/

/-- The result array: its shape, and the stores that fill it. -/
structure SkinnyOutput (R : Type) where
  shape : List Nat
  stores : List (Nat × R)

/-- The kernel that is picked and the grid that it is launched on. -/
def launch (a : Operands R) (big : Bool) : Except KernelFault (List (Nat × R)) :=
  if a.M ≤ 4 then do
    let columns ← (List.range a.O).mapM (oneCol a)
    return columns.flatten
  else if 8 ≤ a.O ∧ big then
    let chunk := if a.D % 256 = 0 then 256 else 128
    let tiles := ((a.O + 7) / 8 + 8 - 1) / 8 * 8
    mma a ⟨(a.M + 7) / 8, chunk, 4, 8⟩ tiles
  else do
    let pairs ← (List.range ((a.O + 1) / 2)).mapM (twoCol a)
    return pairs.flatten

def skinnyMatmul (x w : HalfTensor R) : Except KernelFault (SkinnyOutput R) := do
  let m := x.dim 0
  let o := w.dim 0
  let d := w.dim 1
  let stores ← launch ⟨m, o, d, x.data, w.data⟩ (isBigWeight w)
  return ⟨if x.shape.length = 3 then [m, 1, o] else [m, o], stores⟩

end Mlxforge
