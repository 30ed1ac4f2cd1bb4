import Mlxforge.Cache.KvBudget
import Mlxforge.Lib.Streaming
import Mathlib.Algebra.Field.Basic
import Mathlib.Algebra.BigOperators.Group.Finset.Basic

/-!
The Gated-DeltaNet layer of a hybrid decoder in exact arithmetic: the causal convolution over
the last inputs, the delta-rule recurrence, and the states both carry from call to call.
-/

namespace Mlxforge

/-- One position's features split into heads: `(heads, dim)`. -/
abbrev HeadFeatures (K : Type) := Nat → Nat → K

/-- One row's recurrent state: `(Hv, Dv, Dk)`. -/
abbrev DeltaState (K : Type) := Nat → Nat → Nat → K

/-- One row's convolution state: the features of its last `K - 1` positions. -/
abbrev ConvState (K : Type) := List (Nat → K)

/-- What the cache's arrays hold for one batch row. -/
inductive CacheRow (K : Type) where
  | position (x : Nat → K)
  | conv (s : ConvState K)
  | recur (s : DeltaState K)

namespace CacheRow

variable {K : Type} [Zero K]

def convState : CacheRow K → ConvState K
  | conv s => s
  | _ => []

def recurState : CacheRow K → DeltaState K
  | recur s => s
  | _ => 0

end CacheRow

namespace BatchKVCache

variable {V : Type}

def hasLinearState (c : BatchKVCache V) (layer : Nat) : Bool := (c.layers.getD layer {}).convState.isSome

def linearState (c : BatchKVCache V) (layer : Nat) : List V × List V :=
  ((c.layers.getD layer {}).convState.getD [], (c.layers.getD layer {}).recurState.getD [])

end BatchKVCache

/-- The elementwise kernels; `softplus` is `logaddexp(x, 0)`. -/
structure Elementwise (K : Type) where
  exp : K → K
  sigmoid : K → K
  softplus : K → K
  rsqrt : K → K

/-- One linear-attention layer: the config's dimensions, its projections of one position, its weights. -/
structure GatedDeltaNet (X K : Type) where
  linearNumKeyHeads : Nat
  linearNumValueHeads : Nat
  linearKeyHeadDim : Nat
  linearValueHeadDim : Nat
  linearConvKernelDim : Nat
  rmsEps : K
  kernels : Elementwise K
  inputLayernorm : X → X
  inProjQkv : X → Nat → K
  inProjZ : X → Nat → K
  inProjA : X → Nat → K
  inProjB : X → Nat → K
  /-- `(conv_dim, K, 1)`. -/
  conv1dWeight : Nat → Nat → K
  aLog : Nat → K
  dtBias : Nat → K
  normWeight : Nat → K
  outProj : (Nat → K) → X
  /-- Otherwise the repeated key heads do not broadcast against the value heads. -/
  grouped : 0 < linearNumKeyHeads ∧ linearNumKeyHeads ∣ linearNumValueHeads
  kernel_pos : 0 < linearConvKernelDim

/-- What one timestep of one row feeds the recurrence; `real` is the mask's entry, when there is a mask. -/
structure DeltaInput (K : Type) where
  real : Option Bool
  q : HeadFeatures K
  k : HeadFeatures K
  v : HeadFeatures K
  g : Nat → K
  beta : Nat → K

namespace GatedDeltaNet

variable {X K : Type} [Field K] (m : GatedDeltaNet X K)

def keyDim : Nat := m.linearNumKeyHeads * m.linearKeyHeadDim

def silu (x : K) : K := x * m.kernels.sigmoid x

/-- `mx::fast::rms_norm` of a vector of `n` elements. -/
def rmsNorm (n : Nat) (weight : Nat → K) (eps : K) (x : Nat → K) (i : Nat) : K :=
  x i * m.kernels.rsqrt ((∑ j ∈ Finset.range n, x j * x j) / n + eps) * weight i

/-- `mx::repeat` of the key heads up to the value heads. -/
def repeatHeads (x : HeadFeatures K) (h : Nat) : Nat → K :=
  if m.linearNumKeyHeads < m.linearNumValueHeads then x (h / (m.linearNumValueHeads / m.linearNumKeyHeads)) else x h

/-- One timestep of `gated_delta`: the new state and what is read from it. -/
def deltaStep (i : DeltaInput K) (prev : DeltaState K) : DeltaState K × HeadFeatures K :=
  let q := m.repeatHeads i.q
  let k := m.repeatHeads i.k
  let state : DeltaState K := fun h v d => prev h v d * i.g h
  let kvMem : HeadFeatures K := fun h v => ∑ d ∈ Finset.range m.linearKeyHeadDim, state h v d * k h d
  let delta : HeadFeatures K := fun h v => (i.v h v - kvMem h v) * i.beta h
  let state : DeltaState K := fun h v d => state h v d + k h d * delta h v
  let y : HeadFeatures K := fun h v => ∑ d ∈ Finset.range m.linearKeyHeadDim, state h v d * q h d
  match i.real with
  | none => (state, y)
  -- a masked step freezes the state and emits zeros
  | some real => (if real then state else prev, if real then y else 0)

def initialRecur (initState : Option (List (DeltaState K))) (b : Nat) : DeltaState K :=
  match initState with
  | some states => states.getD b 0
  | none => 0

/-- The loop over the timesteps, every row with its own state. -/
def gatedDelta (inputs : KvArray (DeltaInput K)) (initState : Option (List (DeltaState K))) :
    KvArray (HeadFeatures K) × List (DeltaState K) :=
  let init := initialRecur initState
  (⟨inputs.batch, inputs.cap, fun b => Streaming.outputAt m.deltaStep (init b) (inputs.get b)⟩,
   (List.range inputs.batch).map fun b => Streaming.stateAt m.deltaStep (init b) (inputs.get b) inputs.cap)

/-- The depthwise `conv1d` and SiLU at one position; `recent` is the window of the last `K` inputs. -/
def convOut (recent : Nat → Nat → K) (c : Nat) : K :=
  m.silu (∑ j ∈ Finset.range m.linearConvKernelDim, recent j c * m.conv1dWeight c j)

def invScale : K := m.kernels.rsqrt m.linearKeyHeadDim

/-- Heads and gates of one position, from its convolution output and the projections `a` and `b`. -/
def deltaInput (real : Option Bool) (convOut a b : Nat → K) : DeltaInput K where
  real := real
  q h d := m.invScale * m.invScale *
    m.rmsNorm m.linearKeyHeadDim 1 (1 / 1000000) (fun d => convOut (h * m.linearKeyHeadDim + d)) d
  k h d := m.invScale *
    m.rmsNorm m.linearKeyHeadDim 1 (1 / 1000000) (fun d => convOut (m.keyDim + (h * m.linearKeyHeadDim + d))) d
  v h d := convOut (2 * m.keyDim + (h * m.linearValueHeadDim + d))
  g h := m.kernels.exp (-m.kernels.exp (m.aLog h) * m.kernels.softplus (a h + m.dtBias h))
  beta h := m.kernels.sigmoid (b h)

/-- The gated RMSNorm of one position's heads and `out_proj`. -/
def gatedOut (out : HeadFeatures K) (z : Nat → K) : X :=
  m.outProj fun c =>
    let h := c / m.linearValueHeadDim
    let d := c % m.linearValueHeadDim
    m.silu (z c) * m.rmsNorm m.linearValueHeadDim m.normWeight m.rmsEps (out h) d

def initialConv (initConv : Option (List (ConvState K))) (b : Nat) : ConvState K :=
  match initConv with
  | some states => states.getD b []
  | none => List.replicate (m.linearConvKernelDim - 1) 0

/-- `mx::where` of the mask, when there is one: the padded positions become zero. -/
def maskQkv (mask : Option (KvArray Bool)) (qkv : KvArray (Nat → K)) : KvArray (Nat → K) :=
  match mask with
  | some real => ⟨qkv.batch, qkv.cap, fun b t => if real.get b t then qkv.get b t else 0⟩
  | none => qkv

/-- The layer's output with the new convolution and delta states of every row. -/
def linearAttentionImpl (x : KvArray X) (initConv : Option (List (ConvState K)))
    (initRecur : Option (List (DeltaState K))) (mask : Option (KvArray Bool)) :
    KvArray X × List (ConvState K) × List (DeltaState K) :=
  let xNormed := x.map m.inputLayernorm
  let qkv := maskQkv mask (xNormed.map m.inProjQkv)
  let z := xNormed.map m.inProjZ
  let a := xNormed.map m.inProjA
  let b := xNormed.map m.inProjB
  let convIn (r : Nat) : List (Nat → K) := m.initialConv initConv r ++ window (qkv.get r) 0 x.cap
  let outConv := (List.range x.batch).map fun r => ((convIn r).drop x.cap).take (m.linearConvKernelDim - 1)
  let inputs : KvArray (DeltaInput K) := ⟨x.batch, x.cap, fun r t =>
    m.deltaInput (mask.map (·.get r t)) (m.convOut fun j => (convIn r).getD (t + j) 0) (a.get r t) (b.get r t)⟩
  let (out, finalState) := m.gatedDelta inputs initRecur
  (⟨x.batch, x.cap, fun r t => m.gatedOut (out.get r t) (z.get r t)⟩, outConv, finalState)

/-- The single-sequence path: no mask, and the layer's state in the cache, if it has one. -/
def linearAttention (x : KvArray X) (state : Option (List (ConvState K) × List (DeltaState K))) :
    KvArray X × List (ConvState K) × List (DeltaState K) :=
  m.linearAttentionImpl x (state.map (·.1)) (state.map (·.2)) none

/-- A linear layer's part of the batched `forward`, on the layer's input `h`. -/
def forwardLinear (layer : Nat) (h : KvArray X) (c : BatchKVCache (CacheRow K)) :
    KvArray X × BatchKVCache (CacheRow K) :=
  let realPos : KvArray Bool := ⟨h.batch, h.cap, fun b s => decide (c.leftPadding.getD b 0 ≤ c.idx + s)⟩
  let init := if c.hasLinearState layer then some (c.linearState layer) else none
  let initConv := init.map fun s => s.1.map CacheRow.convState
  let initRecur := init.map fun s => s.2.map CacheRow.recurState
  let (y, outConv, outRecur) := m.linearAttentionImpl h initConv initRecur (some realPos)
  (y, c.setLinearState layer (outConv.map .conv) (outRecur.map .recur))

/-- A layer's share of a run of forward passes, each ending with `advance`. -/
def forwardCalls (layer : Nat) : List (KvArray X) → BatchKVCache (CacheRow K) →
    List (KvArray X) × BatchKVCache (CacheRow K)
  | [], c => ([], c)
  | h :: hs, c =>
    let (y, c) := m.forwardLinear layer h c
    let (ys, c) := forwardCalls layer hs (c.advance h.cap)
    (y :: ys, c)

end GatedDeltaNet

end Mlxforge
