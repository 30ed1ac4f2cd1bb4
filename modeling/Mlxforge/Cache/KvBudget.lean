import Mlxforge.Cache.GrowthSteps

/-!
# The admission gate

`KVBudget` projects the bytes of a batch in machine words. The cache allocates whole steps, so the projection is below
what is allocated wherever the last step is not full.
-/

namespace Mlxforge

/-- The fields of the model config that decide how much is cached. -/
structure CacheConfig where
  nLayers : Nat
  nKvHeads : Nat
  headDim : Nat
  fullAttentionInterval : Int := 0
  linearNumKeyHeads : Nat := 0
  linearNumValueHeads : Nat := 0
  linearKeyHeadDim : Nat := 0
  linearValueHeadDim : Nat := 0
  linearConvKernelDim : Nat := 0
  headDim_int : headDim < 2 ^ 31

namespace CacheConfig

variable (cfg : CacheConfig)

def isLinearLayer (i : Nat) : Bool :=
  if cfg.fullAttentionInterval ≤ 0 then false else ((i : Int) + 1) % cfg.fullAttentionInterval != 0

def kvLayers : Nat := (List.range cfg.nLayers).countP fun i => !cfg.isLinearLayer i

def linearLayers : Nat := (List.range cfg.nLayers).countP fun i => cfg.isLinearLayer i

end CacheConfig

structure KVBudget where
  bytesPerToken : UInt64
  linearStateBytes : UInt64
  budgetBytes : UInt64

namespace KVBudget

def kvLayerCount (cfg : CacheConfig) : UInt64 :=
  if cfg.fullAttentionInterval ≤ 0 then .ofNat cfg.nLayers else .ofNat cfg.kvLayers

def computeLinearStateBytes (cfg : CacheConfig) : UInt64 :=
  if cfg.fullAttentionInterval ≤ 0 then 0
  else
    let keyDim := UInt64.ofNat cfg.linearNumKeyHeads * .ofNat cfg.linearKeyHeadDim
    let valueDim := UInt64.ofNat cfg.linearNumValueHeads * .ofNat cfg.linearValueHeadDim
    let convDim := 2 * keyDim + valueDim
    let convBytes := UInt64.ofNat (cfg.linearConvKernelDim - 1) * convDim * 2
    let recurBytes := valueDim * .ofNat cfg.linearKeyHeadDim * 4
    UInt64.ofNat cfg.linearLayers * (convBytes + recurBytes)

/-- One row of K or V values: fp16, or packed bits with a scale and a bias for each group. -/
def perHeadRowBytes (cfg : CacheConfig) (q : KVQuantConfig) : UInt64 :=
  let d := UInt64.ofNat cfg.headDim
  if !q.enabled then d * 2 else d * .ofInt q.bits / 8 + d / .ofInt q.groupSize * 2 * 2

def new (cfg : CacheConfig) (budgetBytes : UInt64) (q : KVQuantConfig) : KVBudget where
  bytesPerToken := 2 * kvLayerCount cfg * .ofNat cfg.nKvHeads * perHeadRowBytes cfg q
  linearStateBytes := computeLinearStateBytes cfg
  budgetBytes

/-- The sum of the lengths is an `int`. -/
def projectBytes (b : KVBudget) (maxLen maxNew batch : Nat) : UInt64 :=
  .ofNat batch * (b.linearStateBytes + .ofInt (((maxLen : Int) + maxNew).bmod (2 ^ 32)) * b.bytesPerToken)

def canAdmit (b : KVBudget) (maxLen maxNew batch : Nat) : Bool :=
  if b.budgetBytes = 0 then true else b.projectBytes maxLen maxNew batch ≤ b.budgetBytes

end KVBudget

/-- The settings that `mx::quantize` takes for a row of `headDim` values. -/
def KVQuantConfig.Accepts (q : KVQuantConfig) (headDim : Nat) : Prop :=
  q.enabled = true → q.bits ∈ [2, 3, 4, 5, 6, 8] ∧ q.groupSize ∈ [32, 64, 128] ∧ q.groupSize ∣ headDim

/-! ### What is allocated -/

namespace CacheConfig

variable (cfg : CacheConfig) (q : KVQuantConfig)

/-- The bytes of one row of each component: fp16 values, or 32-bit words, fp16 scales and fp16 biases. -/
def rowBytes : List Nat :=
  if q.enabled then
    [cfg.headDim * q.bits.toNat / 32 * 4, cfg.headDim / q.groupSize.toNat * 2, cfg.headDim / q.groupSize.toNat * 2]
  else [cfg.headDim * 2]

def valueDim : Nat := cfg.linearNumValueHeads * cfg.linearValueHeadDim

def convDim : Nat := 2 * (cfg.linearNumKeyHeads * cfg.linearKeyHeadDim) + cfg.valueDim

/-- The last inputs of the convolution, in fp16. -/
def convBytes : Nat := (cfg.linearConvKernelDim - 1) * cfg.convDim * 2

/-- The state of the recurrence, in fp32. -/
def recurBytes : Nat := cfg.valueDim * cfg.linearKeyHeadDim * 4

/-- The bytes of one token in all layers, and of one row's states. -/
def tokenBytes : Nat := 2 * cfg.kvLayers * cfg.nKvHeads * (cfg.rowBytes q).sum

def stateBytes : Nat := cfg.linearLayers * (cfg.convBytes + cfg.recurBytes)

variable {V : Type}

def storeBytes (comps : List (KvArray V)) : Nat :=
  (List.zipWith (fun (a : KvArray V) width => a.batch * a.cap * (cfg.nKvHeads * width)) comps (cfg.rowBytes q)).sum

def layerBytes (l : Layer V) : Nat :=
  cfg.storeBytes q l.keys + cfg.storeBytes q l.values + (l.convState.getD []).length * cfg.convBytes +
    (l.recurState.getD []).length * cfg.recurBytes

def allocatedBytes (c : BatchKVCache V) : Nat := (c.layers.map (cfg.layerBytes q)).sum

end CacheConfig

/-! ### Forward passes -/

section passes
variable {V : Type}

namespace BatchKVCache

def setLinearState (c : BatchKVCache V) (layer : Nat) (conv recur : List V) : BatchKVCache V :=
  let l := c.layers.getD layer {}
  { c with layers := c.layers.set layer { l with convState := some conv, recurState := some recur } }

end BatchKVCache

/-- What one layer computes for a chunk: its K and V, or its states. -/
structure LayerInput (V : Type) where
  k : KvArray V
  v : KvArray V
  conv : List V
  recur : List V

/-- What a forward pass of `len` tokens computes for `B` rows. -/
structure Pass (V : Type) (B nLayers : Nat) where
  len : Nat
  inputs : List (LayerInput V)
  count : inputs.length = nLayers
  k_shape : ∀ x ∈ inputs, x.k.batch = B ∧ x.k.cap = len
  v_shape : ∀ x ∈ inputs, x.v.batch = B ∧ x.v.cap = len
  states : ∀ x ∈ inputs, x.conv.length = B ∧ x.recur.length = B

variable [Slot V]

/-- A pass over zeros. -/
def Pass.zeros (V : Type) [Slot V] (B nLayers len : Nat) : Pass V B nLayers where
  len
  inputs := .replicate nLayers
    ⟨KvArray.zeros B len, KvArray.zeros B len, .replicate B Slot.zero, .replicate B Slot.zero⟩
  count := List.length_replicate
  k_shape x member := by
    rw [List.eq_of_mem_replicate member]
    exact ⟨rfl, rfl⟩
  v_shape x member := by
    rw [List.eq_of_mem_replicate member]
    exact ⟨rfl, rfl⟩
  states x member := by
    rw [List.eq_of_mem_replicate member]
    exact ⟨List.length_replicate, List.length_replicate⟩

def forwardLayer (cfg : CacheConfig) (c : BatchKVCache V) (layer : Nat) (x : LayerInput V) :
    Except Fault (BatchKVCache V) :=
  if cfg.isLinearLayer layer then .ok (c.setLinearState layer x.conv x.recur) else (c.append layer x.k x.v).map (·.1)

def forwardLayers (cfg : CacheConfig) (c : BatchKVCache V) (layer : Nat) : List (LayerInput V) → Except Fault (BatchKVCache V)
  | [] => .ok c
  | x :: xs => do
    let c ← forwardLayer cfg c layer x
    forwardLayers cfg c (layer + 1) xs

/-- One forward pass: every layer in turn, then `advance`. -/
def forwardPass {B : Nat} (cfg : CacheConfig) (c : BatchKVCache V) (p : Pass V B cfg.nLayers) :
    Except Fault (BatchKVCache V) := do
  let c ← forwardLayers cfg c 0 p.inputs
  return c.advance p.len

/-- A cache for rows of the given padding after its forward passes. -/
def forwardPasses {B : Nat} (cfg : CacheConfig) (q : KVQuantConfig) (leftPadding : List Int)
    (passes : List (Pass V B cfg.nLayers)) : Except Fault (BatchKVCache V) :=
  passes.foldlM (forwardPass cfg) (.new 256 cfg.nLayers leftPadding q)

end passes

end Mlxforge
