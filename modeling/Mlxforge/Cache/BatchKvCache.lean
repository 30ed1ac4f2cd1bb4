import Mlxforge.Cache.KvQuant

/-!
The batched decode cache. Per layer it holds left-padded K and V storage (or, for a
linear-attention layer, a fixed-size state per row); `idx`, `offset` and `leftPadding` are
shared by all layers.
-/

namespace Mlxforge

variable {V : Type}

/-- One layer's storage: `keys_[l]`, `values_[l]`, `conv_state_[l]`, `recur_state_[l]`. -/
structure Layer (V : Type) where
  keys : List (KvArray V) := []
  values : List (KvArray V) := []
  convState : Option (List V) := none
  recurState : Option (List V) := none

/-- One pooled block: per layer the K and V components of `block_size` positions. -/
structure KVBlock (V : Type) where
  k : List (List (KvArray V))
  v : List (List (KvArray V))
  bytes : Nat := 0

structure BatchKVCache (V : Type) where
  kStep : Nat := 256
  batch : Nat
  idx : Int := 0
  layers : List (Layer V)
  qcfg : KVQuantConfig := {}
  offset : List Int
  leftPadding : List Int

/-- `mx::take` on a per-row array; an index past the end, which no caller passes, reads `fill`. -/
def gather {α : Type} (fill : α) (xs : List α) (keep : List Nat) : List α :=
  keep.map fun i => xs.getD i fill

namespace BatchKVCache

/-- The constructor: nothing written yet, each row's offset minus its padding. -/
def new (kStep nLayers : Nat) (leftPadding : List Int) (qcfg : KVQuantConfig := {}) :
    BatchKVCache V where
  kStep := kStep
  batch := leftPadding.length
  layers := List.replicate nLayers {}
  qcfg := qcfg
  offset := leftPadding.map fun p => -p
  leftPadding := leftPadding

def fromSingleSequence (kStep : Nat) (kvPerLayer : List (KvArray V × KvArray V)) (seq : Nat)
    (decodeOffset : Int) : BatchKVCache V where
  kStep := kStep
  batch := 1
  idx := seq
  layers := kvPerLayer.map fun kv => { keys := [kv.1], values := [kv.2] }
  offset := [decodeOffset]
  leftPadding := [0]

def quantized (c : BatchKVCache V) : Bool := c.qcfg.enabled

/-- Capacity along the sequence axis, read off layer 0. -/
def sCap (c : BatchKVCache V) : Nat :=
  match c.layers with
  | [] => 0
  | l :: _ => seqLen l.keys

/-- `mx::concatenate(parts, 2)` of a non-empty list. -/
def concatSeqAll : List (KvArray V) → Except Fault (KvArray V)
  | [] => .error .concatenate
  | a :: rest => rest.foldlM KvArray.concatSeq a

section
variable [Slot V]

/-- One layer of `from_prefix`: component `i` of every block, stitched and cut to `len`. -/
def stitch (parts : List (List (KvArray V))) (nComp : Nat) (len : Nat) :
    Except Fault (List (KvArray V)) :=
  (List.range nComp).mapM fun i => do
    let j ← concatSeqAll (parts.map fun comps => comps.getD i (KvArray.zeros 0 0))
    return j.sliceSeq 0 len

def prefixLayer (kStep : Nat) (blocks : List (KVBlock V)) (len l : Nat) :
    Except Fault (Layer V) := do
  let nComp := ((blocks.headD ⟨[], [], 0⟩).k.getD l []).length
  let kIn ← stitch (blocks.map fun b => b.k.getD l []) nComp len
  let vIn ← stitch (blocks.map fun b => b.v.getD l []) nComp len
  let (keys, _) ← updateKvComponents [] kIn 0 kStep
  let (values, _) ← updateKvComponents [] vIn 0 kStep
  return { keys, values }

def fromPrefix (kStep nLayers : Nat) (blocks : List (KVBlock V)) (len : Int)
    (qcfg : KVQuantConfig := {}) : Except Fault (BatchKVCache V) := do
  let c := new kStep nLayers [0] qcfg
  if len ≤ 0 ∨ blocks.length = 0 then return c
  let layers ← (List.range nLayers).mapM (prefixLayer kStep blocks len.toNat)
  return { c with layers, idx := len, offset := [len] }

/-- The write both fetch functions share: `store` is how one side takes its chunk. -/
def Layer.write (store : List (KvArray V) → KvArray V →
      Except Fault (List (KvArray V) × List (KvArray V)))
    (layer : Layer V) (k v : KvArray V) :
    Except Fault (Layer V × (List (KvArray V) × List (KvArray V))) := do
  let (keys, ks) ← store layer.keys k
  let (values, vs) ← store layer.values v
  return ({ layer with keys, values }, (ks, vs))

def updateAndFetch (c : BatchKVCache V) (layer : Nat) (k v : KvArray V) :
    Except Fault (BatchKVCache V × (List (KvArray V) × List (KvArray V))) := do
  if c.quantized then throw .cacheQuantized
  let (l, kv) ← Layer.write (fun store x => updateKvComponents store [x] c.idx c.kStep)
    (c.layers.getD layer {}) k v
  return ({ c with layers := c.layers.set layer l }, kv)

def updateAndFetchQuantized (c : BatchKVCache V) (layer : Nat) (k v : KvArray V) :
    Except Fault (BatchKVCache V × (List (KvArray V) × List (KvArray V))) := do
  if !c.quantized then throw .cacheDense
  let (l, kv) ← Layer.write (fun store x => quantizeAndUpdate store x c.qcfg c.idx c.kStep)
    (c.layers.getD layer {}) k v
  return ({ c with layers := c.layers.set layer l }, kv)

/-- The dispatch of `sdpa_with_cache`: the storage mode decides which write runs. -/
def append (c : BatchKVCache V) (layer : Nat) (k v : KvArray V) :
    Except Fault (BatchKVCache V × (List (KvArray V) × List (KvArray V))) :=
  if c.quantized then c.updateAndFetchQuantized layer k v else c.updateAndFetch layer k v

def padRows (extra : Nat) (comps : List (KvArray V)) : Except Fault (List (KvArray V)) :=
  comps.mapM fun a => a.concatBatch (KvArray.zeros extra a.cap)

def padLayerRows (extra : Nat) (l : Layer V) : Except Fault (Layer V) := do
  let keys ← padRows extra l.keys
  let values ← padRows extra l.values
  return { keys, values,
           convState := l.convState.map (· ++ List.replicate extra Slot.zero)
           recurState := l.recurState.map (· ++ List.replicate extra Slot.zero) }

/-- Append `extra` dummy rows whose padding is the whole written length. -/
def padDummies (c : BatchKVCache V) (extra : Nat) : Except Fault (BatchKVCache V) := do
  if extra = 0 then return c
  let layers ← c.layers.mapM (padLayerRows extra)
  return { c with
    layers
    offset := c.offset ++ List.replicate extra 0
    leftPadding := c.leftPadding ++ List.replicate extra c.idx
    batch := c.batch + extra }

end

def advance (c : BatchKVCache V) (nTokens : Nat) : BatchKVCache V :=
  { c with idx := c.idx + nTokens, offset := c.offset.map (· + nTokens) }

/-- One row's K and V components over `[leftPad, leftPad + len)`. -/
def fetchRowComponents (c : BatchKVCache V) (layer row : Nat) (leftPad len : Int) :
    List (KvArray V) × List (KvArray V) :=
  let l := c.layers.getD layer {}
  (l.keys.map (·.sliceRow row leftPad (leftPad + len)),
   l.values.map (·.sliceRow row leftPad (leftPad + len)))

def takeLayer [Slot V] (keep : List Nat) (l : Layer V) : Layer V where
  keys := l.keys.map (·.take keep)
  values := l.values.map (·.take keep)
  convState := l.convState.map (gather Slot.zero · keep)
  recurState := l.recurState.map (gather Slot.zero · keep)

def shiftLayer (m : Int) (l : Layer V) : Layer V :=
  { l with keys := l.keys.map fun a => a.sliceSeq m a.cap
           values := l.values.map fun a => a.sliceSeq m a.cap }

/-- Keep the given rows, then drop the left padding common to all of them. -/
def filter [Slot V] (c : BatchKVCache V) (keep : List Nat) : BatchKVCache V :=
  let kept := { c with
    layers := c.layers.map (takeLayer keep)
    offset := gather 0 c.offset keep
    leftPadding := gather 0 c.leftPadding keep
    batch := keep.length }
  let minLeftPad := kept.leftPadding.min?.getD 0
  if 0 < minLeftPad then
    { kept with
      layers := kept.layers.map (shiftLayer minLeftPad)
      idx := kept.idx - minLeftPad
      leftPadding := kept.leftPadding.map (· - minLeftPad) }
  else kept

section
variable [Slot V]

/-- One array of `pad_layer`: written up to `idx`, it is right-justified at `maxIdx` in
`maxSize` slots. -/
def justify (maxIdx maxSize idx : Int) (a : KvArray V) : Except Fault (KvArray V) :=
  let left := maxIdx - idx
  let right := maxSize - a.cap - left
  -- trim the unused tail
  let trimmed := if right < 0 then a.sliceSeq 0 (a.cap + right) else a
  let right := if right < 0 then 0 else right
  if left ≠ 0 ∨ right ≠ 0 then trimmed.pad left right else .ok trimmed

def padLayer (maxIdx maxSize idx : Int) (comps : List (KvArray V)) :
    Except Fault (List (KvArray V)) :=
  comps.mapM (justify maxIdx maxSize idx)

def mergeState (a b : Option (List V)) : Option (List V) :=
  match a, b with
  | some x, some y => some (x ++ y)
  | a, _ => a

def mergeLayer (maxIdx maxSize idxA idxB : Int) (a b : Layer V) : Except Fault (Layer V) := do
  let ka ← padLayer maxIdx maxSize idxA a.keys
  let kb ← padLayer maxIdx maxSize idxB b.keys
  let va ← padLayer maxIdx maxSize idxA a.values
  let vb ← padLayer maxIdx maxSize idxB b.values
  let keys ← zipComponents KvArray.concatBatch ka kb
  let values ← zipComponents KvArray.concatBatch va vb
  return { keys, values,
           convState := mergeState a.convState b.convState
           recurState := mergeState a.recurState b.recurState }

def mergeLayers (maxIdx maxSize idxA idxB : Int) :
    List (Layer V) → List (Layer V) → Except Fault (List (Layer V))
  | a :: as, b :: bs => do
    let l ← mergeLayer maxIdx maxSize idxA idxB a b
    let ls ← mergeLayers maxIdx maxSize idxA idxB as bs
    return l :: ls
  | _, _ => .ok []

def merge (c other : BatchKVCache V) : Except Fault (BatchKVCache V) := do
  if c.qcfg ≠ other.qcfg then throw .configsDiffer
  if other.batch = 0 then return c
  if c.batch = 0 then return { other with kStep := c.kStep }
  let maxIdx := max c.idx other.idx
  let maxSize : Int := max c.sCap other.sCap
  let layers ← mergeLayers maxIdx maxSize c.idx other.idx c.layers other.layers
  return { c with
    layers
    leftPadding := c.leftPadding.map (· + (maxIdx - c.idx)) ++
      other.leftPadding.map (· + (maxIdx - other.idx))
    offset := c.offset ++ other.offset
    idx := maxIdx
    batch := c.batch + other.batch }

end

end BatchKVCache

end Mlxforge
