import Mlxforge.Mlx.Array

/-!
Component storage shared by the caches. A layer's K (or V) is a vector of arrays, one when
dense and three when quantized, that grow in blocks of `step` and are written in lockstep.
-/

namespace Mlxforge

structure KVQuantConfig where
  bits : Int := 0
  groupSize : Int := 64
  deriving DecidableEq, Repr

def KVQuantConfig.enabled (q : KVQuantConfig) : Bool := 0 < q.bits

variable {V : Type}

/-- `shape()[2]` of the first component, 0 for an empty vector. -/
def seqLen : List (KvArray V) → Nat
  | [] => 0
  | a :: _ => a.cap

/-- Applies `f` to the pairs of two component vectors, stopping at the first exception. -/
def zipComponents (f : KvArray V → KvArray V → Except Fault (KvArray V)) :
    List (KvArray V) → List (KvArray V) → Except Fault (List (KvArray V))
  | a :: as, c :: cs => do
    let x ← f a c
    let xs ← zipComponents f as cs
    return x :: xs
  | _, _ => .ok []

theorem zipComponents_nil (f : KvArray V → KvArray V → Except Fault (KvArray V)) :
    zipComponents f [] [] = .ok [] := rfl

/-- When `f` succeeds on every pair with the value `g` gives, so does the whole walk. -/
theorem zipComponents_ok {f : KvArray V → KvArray V → Except Fault (KvArray V)}
    {g : KvArray V → KvArray V → KvArray V} {as cs : List (KvArray V)}
    (same : as.length = cs.length)
    (ok : ∀ a ∈ as, ∀ c ∈ cs, f a c = .ok (g a c)) :
    zipComponents f as cs = .ok (List.zipWith g as cs) := by
  induction as generalizing cs with
  | nil =>
    cases cs with
    | nil => rfl
    | cons => simp at same
  | cons a as ih =>
    cases cs with
    | nil => simp at same
    | cons c cs =>
      have head := ok a (by simp) c (by simp)
      have tail := ih (by simpa using same) fun x hx y hy => ok x (by simp [hx]) y (by simp [hy])
      simp only [zipComponents, head, tail, List.zipWith_cons_cons]
      rfl

section
variable [Slot V]

/-- One component of a grown store: `cur` with `add` zero slots behind it. An empty store
starts from the zero slots alone; otherwise the unused tail of the last block goes first. -/
def growComponent (step add : Nat) (prev : Int) (cur inp : KvArray V) :
    Except Fault (KvArray V) :=
  let fresh := KvArray.zeros inp.batch add
  let cur := if prev % step ≠ 0 then cur.sliceSeq 0 prev else cur
  cur.concatSeq fresh

/-- Write `inp`'s components at positions `[prev, prev + L)` of `store`, growing it first when
they do not fit, and return the new store with the populated views `[0, prev + L)`. -/
def updateKvComponents (store inp : List (KvArray V)) (prev : Int) (step : Nat) :
    Except Fault (List (KvArray V) × List (KvArray V)) := do
  let L := seqLen inp
  let stop := prev + L
  let nSteps := (step + L - 1) / step
  let add := nSteps * step
  let store ←
    if store = [] then pure (inp.map fun a => KvArray.zeros a.batch add)
    else if stop > seqLen store then zipComponents (growComponent step add prev) store inp
    else pure store
  let written ← zipComponents (fun cur a => cur.sliceUpdate a prev stop) store inp
  return (written, written.map (KvArray.sliceSeq · 0 stop))

/-- `mx::quantize` of every position: packed words, scales, biases. -/
def quantize (x : KvArray V) (groupSize bits : Nat) : List (KvArray V) :=
  [x.map fun v => (Slot.quantize groupSize bits v).1,
   x.map fun v => (Slot.quantize groupSize bits v).2.1,
   x.map fun v => (Slot.quantize groupSize bits v).2.2]

def quantizeAndUpdate (store : List (KvArray V)) (x : KvArray V) (q : KVQuantConfig)
    (pos : Int) (step : Nat) : Except Fault (List (KvArray V) × List (KvArray V)) :=
  updateKvComponents store (quantize x q.groupSize.toNat q.bits.toNat) pos step

end

end Mlxforge
