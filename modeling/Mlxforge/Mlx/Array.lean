import Mathlib.Tactic

/-!
The array operations the cache code performs. Only the batch axis (0) and the sequence
axis (2) ever change, so an array is those two extents and a read function; one slot stands
for the values of all KV heads at a position (axes 1 and 3).
-/

namespace Mlxforge

/-- The exceptions the modelled code can throw; `outOfBounds` stands for an access that C++ leaves undefined. -/
inductive Fault where
  | concatenate | pad | broadcast | reshape
  | cacheQuantized | cacheDense | configsDiffer
  | multimodal
  | outOfBounds
  deriving DecidableEq, Repr

/-- The operations on one slot: the zero fill of fresh capacity, and `mx::quantize`, which
maps a position's values to packed words, scales and biases. -/
class Slot (V : Type) where
  zero : V
  quantize : (groupSize bits : Nat) → V → V × V × V

/-- Slots of one number: a constant group quantizes to its bias. -/
instance : Slot Int := ⟨0, fun _ _ x => (0, 1, x)⟩

structure KvArray (V : Type) where
  batch : Nat
  cap : Nat
  get : Nat → Nat → V

/-- A slice bound, with numpy's meaning: negative counts from the end, then clamped. -/
def clampIndex (n : Nat) (i : Int) : Nat := min (if i < 0 then i + n else i).toNat n

@[simp] theorem clampIndex_natCast (n k : Nat) : clampIndex n (k : Int) = min k n := by
  have : ¬ (k : Int) < 0 := by omega
  simp [clampIndex, this]

@[simp] theorem clampIndex_zero (n : Nat) : clampIndex n 0 = 0 := by simp [clampIndex]

namespace KvArray

variable {V : Type}

/-- `mx::zeros({batch, _, cap, _})`. -/
def zeros [Slot V] (batch cap : Nat) : KvArray V := ⟨batch, cap, fun _ _ => Slot.zero⟩

def map {W : Type} (f : V → W) (a : KvArray V) : KvArray W := ⟨a.batch, a.cap, fun b t => f (a.get b t)⟩

/-- `mx::slice` along the sequence axis. -/
def sliceSeq (a : KvArray V) (start stop : Int) : KvArray V :=
  ⟨a.batch, clampIndex a.cap stop - clampIndex a.cap start,
    fun b t => a.get b (clampIndex a.cap start + t)⟩

/-- `mx::slice` of one batch row, all positions of `[start, stop)`. -/
def sliceRow (a : KvArray V) (row : Nat) (start stop : Int) : KvArray V :=
  ⟨min 1 (a.batch - row), clampIndex a.cap stop - clampIndex a.cap start,
    fun _ t => a.get row (clampIndex a.cap start + t)⟩

/-- `mx::concatenate({a, c}, 2)`. -/
def concatSeq (a c : KvArray V) : Except Fault (KvArray V) :=
  if a.batch = c.batch then
    .ok ⟨a.batch, a.cap + c.cap, fun b t => if t < a.cap then a.get b t else c.get b (t - a.cap)⟩
  else .error .concatenate

/-- `mx::concatenate({a, c}, 0)`. -/
def concatBatch (a c : KvArray V) : Except Fault (KvArray V) :=
  if a.cap = c.cap then
    .ok ⟨a.batch + c.batch, a.cap,
      fun b t => if b < a.batch then a.get b t else c.get (b - a.batch) t⟩
  else .error .concatenate

/-- `mx::pad` along the sequence axis; a negative width is rejected. -/
def pad [Slot V] (a : KvArray V) (left right : Int) : Except Fault (KvArray V) :=
  if left < 0 ∨ right < 0 then .error .pad
  else .ok ⟨a.batch, left.toNat + a.cap + right.toNat, fun b t =>
    if left.toNat ≤ t ∧ t < left.toNat + a.cap then a.get b (t - left.toNat) else Slot.zero⟩

/-- `mx::take` on the batch axis. -/
def take (a : KvArray V) (keep : List Nat) : KvArray V :=
  ⟨keep.length, a.cap, fun b t => a.get (keep.getD b 0) t⟩

/-- `mx::slice_update` of positions `[start, stop)`; the update broadcasts to the slice. -/
def sliceUpdate (a upd : KvArray V) (start stop : Int) : Except Fault (KvArray V) :=
  let s := clampIndex a.cap start
  let n := clampIndex a.cap stop - s
  if (upd.batch = a.batch ∨ upd.batch = 1) ∧ (upd.cap = n ∨ upd.cap = 1) then
    .ok ⟨a.batch, a.cap, fun b t =>
      if s ≤ t ∧ t < s + n then
        upd.get (if upd.batch = a.batch then b else 0) (if upd.cap = n then t - s else 0)
      else a.get b t⟩
  else .error .broadcast

theorem sliceSeq_prefix (a : KvArray V) {n : Nat} (h : n ≤ a.cap) :
    a.sliceSeq 0 n = ⟨a.batch, n, a.get⟩ := by
  simp [sliceSeq, Nat.min_eq_left h]

theorem concatSeq_ok {a c : KvArray V} (h : a.batch = c.batch) :
    a.concatSeq c = .ok ⟨a.batch, a.cap + c.cap,
      fun b t => if t < a.cap then a.get b t else c.get b (t - a.cap)⟩ := by
  simp [concatSeq, h]

theorem concatBatch_ok {a c : KvArray V} (h : a.cap = c.cap) :
    a.concatBatch c = .ok ⟨a.batch + c.batch, a.cap,
      fun b t => if b < a.batch then a.get b t else c.get (b - a.batch) t⟩ := by
  simp [concatBatch, h]

theorem pad_ok [Slot V] (a : KvArray V) (left right : Nat) :
    a.pad left right = .ok ⟨a.batch, left + a.cap + right, fun b t =>
      if left ≤ t ∧ t < left + a.cap then a.get b (t - left) else Slot.zero⟩ := by
  have : ¬ ((left : Int) < 0 ∨ (right : Int) < 0) := by omega
  simp [pad, this]

theorem sliceUpdate_ok (a upd : KvArray V) {n : Nat} (batch : upd.batch = a.batch)
    (fits : n + upd.cap ≤ a.cap) :
    a.sliceUpdate upd n (n + upd.cap : Int) = .ok ⟨a.batch, a.cap, fun b t =>
      if n ≤ t ∧ t < n + upd.cap then upd.get b (t - n) else a.get b t⟩ := by
  have lo : clampIndex a.cap (n : Int) = n := by simp; omega
  have hi : clampIndex a.cap ((n : Int) + upd.cap) = n + upd.cap := by
    rw [← Nat.cast_add, clampIndex_natCast]; omega
  simp [sliceUpdate, lo, hi, batch]

end KvArray

end Mlxforge
