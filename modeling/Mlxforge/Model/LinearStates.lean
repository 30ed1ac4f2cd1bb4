import Mlxforge.Model.GatedDelta

/-!
The linear-attention layers do not see how a row is batched, padded or cut into calls: every
call continues one stream per row, and the row's padding leaves both of its states at zero.
-/

namespace Mlxforge

open Streaming

namespace GatedDeltaNet

variable {X K : Type} [Field K] (m : GatedDeltaNet X K)

/-! ### One row as a stream of columns -/

section row
variable (pad : Nat) (x : Nat → X)

/-- What the convolution reads at column `t`. -/
def qkvAt (t : Nat) : Nat → K := if pad ≤ t then m.inProjQkv (m.inputLayernorm (x t)) else 0

/-- The convolution's whole input, from the zero state on. -/
def convStream : Nat → Nat → K := delayed 0 (m.linearConvKernelDim - 1) (m.qkvAt pad x)

def deltaInputAt (t : Nat) : DeltaInput K :=
  m.deltaInput (some (decide (pad ≤ t))) (m.convOut fun j => m.convStream pad x (t + j))
    (m.inProjA (m.inputLayernorm (x t))) (m.inProjB (m.inputLayernorm (x t)))

/-- The convolution state after `t` columns. -/
def convAfter (t : Nat) : ConvState K := window (m.convStream pad x) t (t + (m.linearConvKernelDim - 1))

/-- The delta state after `t` columns. -/
def recurAfter (t : Nat) : DeltaState K := stateAt m.deltaStep 0 (m.deltaInputAt pad x) t

def outputOf (t : Nat) : X :=
  m.gatedOut (outputAt m.deltaStep 0 (m.deltaInputAt pad x) t) (m.inProjZ (m.inputLayernorm (x t)))

end row

/-! ### One call -/

variable {m}

theorem convOut_congr {recent recent' : Nat → Nat → K} (same : ∀ j < m.linearConvKernelDim, recent j = recent' j) :
    m.convOut recent = m.convOut recent' := by
  funext c
  unfold convOut
  congr 1
  refine Finset.sum_congr rfl fun j member => ?_
  rw [same j (Finset.mem_range.mp member)]

/-- Without a mask every step is a real one. -/
theorem deltaStep_real (i : DeltaInput K) :
    m.deltaStep i = m.deltaStep { i with real := some (i.real.getD true) } := by
  obtain ⟨real, q, k, v, g, beta⟩ := i
  cases real with
  | none => rfl
  | some real => rfl

theorem maskQkv_get (mask : Option (KvArray Bool)) (qkv : KvArray (Nat → K)) (b t : Nat) :
    (maskQkv mask qkv).get b t = if (mask.map (·.get b t)).getD true then qkv.get b t else 0 := by
  cases mask with
  | none => rfl
  | some real => rfl

section call
variable {x : KvArray X} {mask : Option (KvArray Bool)} {initConv : Option (List (ConvState K))}
  {initRecur : Option (List (DeltaState K))} {b pad start : Nat} {u : Nat → X}

/-- Row `b` of a call continues the stream `u` of a row with `pad` columns of padding at column `start`. -/
structure Continues (m : GatedDeltaNet X K) (x : KvArray X) (mask : Option (KvArray Bool))
    (initConv : Option (List (ConvState K))) (initRecur : Option (List (DeltaState K)))
    (b pad start : Nat) (u : Nat → X) : Prop where
  inside : b < x.batch
  input : ∀ s < x.cap, x.get b s = u (start + s)
  real : ∀ s < x.cap, (mask.map (·.get b s)).getD true = decide (pad ≤ start + s)
  conv : m.initialConv initConv b = m.convAfter pad u start
  recur : initialRecur initRecur b = m.recurAfter pad u start

theorem Continues.convIn (continues : m.Continues x mask initConv initRecur b pad start u) :
    m.initialConv initConv b ++
        window ((maskQkv mask ((x.map m.inputLayernorm).map m.inProjQkv)).get b) 0 x.cap =
      window (m.convStream pad u) start (start + (m.linearConvKernelDim - 1) + x.cap) := by
  have fresh : window ((maskQkv mask ((x.map m.inputLayernorm).map m.inProjQkv)).get b) 0 x.cap =
      window (m.convStream pad u) (start + (m.linearConvKernelDim - 1))
        (start + (m.linearConvKernelDim - 1) + x.cap) := by
    have shifted := window_shift (m.convStream pad u) (start + (m.linearConvKernelDim - 1)) 0 x.cap
    rw [Nat.zero_add, Nat.add_comm x.cap] at shifted
    rw [← shifted]
    apply window_congr
    intro t _ below
    have place : t + (start + (m.linearConvKernelDim - 1)) = (m.linearConvKernelDim - 1) + (start + t) := by omega
    rw [maskQkv_get, continues.real t below, place, convStream, delayed_add, qkvAt]
    simp only [KvArray.map, continues.input t below, decide_eq_true_eq]
  rw [continues.conv, fresh, convAfter, window_append _ (by omega) (by omega)]

theorem Continues.recent (continues : m.Continues x mask initConv initRecur b pad start u) {s j : Nat}
    (below : s < x.cap) (tap : j < m.linearConvKernelDim) :
    (m.initialConv initConv b ++
        window ((maskQkv mask ((x.map m.inputLayernorm).map m.inProjQkv)).get b) 0 x.cap).getD (s + j) 0 =
      m.convStream pad u (start + s + j) := by
  have room : s + j < (window (m.convStream pad u) start (start + (m.linearConvKernelDim - 1) + x.cap)).length := by
    rw [window_length]
    omega
  rw [continues.convIn, ← List.getElem_eq_getD (h := room), window_getElem, Nat.add_assoc]

/-- A call's steps are the stream's. -/
theorem Continues.step (continues : m.Continues x mask initConv initRecur b pad start u) {s : Nat}
    (below : s < x.cap) :
    m.deltaStep (m.deltaInput (mask.map (·.get b s))
        (m.convOut fun j => (m.initialConv initConv b ++
          window ((maskQkv mask ((x.map m.inputLayernorm).map m.inProjQkv)).get b) 0 x.cap).getD (s + j) 0)
        (((x.map m.inputLayernorm).map m.inProjA).get b s) (((x.map m.inputLayernorm).map m.inProjB).get b s)) =
      m.deltaStep (m.deltaInputAt pad u (start + s)) := by
  have taps := m.convOut_congr fun j tap => continues.recent below (j := j) tap
  rw [taps, deltaStep_real, deltaInputAt]
  simp only [deltaInput, KvArray.map, continues.input s below, continues.real s below]

theorem linearAttentionImpl_continues (continues : m.Continues x mask initConv initRecur b pad start u) :
    (∀ s < x.cap, (m.linearAttentionImpl x initConv initRecur mask).1.get b s = m.outputOf pad u (start + s)) ∧
    (m.linearAttentionImpl x initConv initRecur mask).2.1[b]? = some (m.convAfter pad u (start + x.cap)) ∧
    (m.linearAttentionImpl x initConv initRecur mask).2.2[b]? = some (m.recurAfter pad u (start + x.cap)) := by
  refine ⟨?_, ?_, ?_⟩
  · intro s below
    simp only [linearAttentionImpl, gatedDelta, outputOf]
    rw [continues.recur, recurAfter, outputAt_add]
    congr 1
    · exact outputAt_congr fun t le => continues.step (by omega)
    · simp only [KvArray.map, continues.input s below]
  · simp only [linearAttentionImpl]
    rw [List.getElem?_map, List.getElem?_range continues.inside, Option.map_some, continues.convIn, window_drop,
      window_take _ (by omega)]
    rfl
  · simp only [linearAttentionImpl, gatedDelta]
    rw [List.getElem?_map, List.getElem?_range continues.inside, Option.map_some, continues.recur, recurAfter,
      recurAfter, stateAt_add]
    exact congrArg some (stateAt_congr fun t below => continues.step below)

end call

/-! ### The padding -/

section padding
variable {pad t : Nat} {u : Nat → X}

theorem qkvAt_padding (inside : t < pad) : m.qkvAt pad u t = 0 := if_neg (by omega)

theorem qkvAt_shift (t : Nat) : m.qkvAt pad u (pad + t) = m.qkvAt 0 (fun t => u (pad + t)) t := by
  rw [qkvAt, qkvAt, if_pos (Nat.le_add_right pad t), if_pos (Nat.zero_le t)]

theorem convStream_shift (p : Nat) : m.convStream pad u (pad + p) = m.convStream 0 (fun t => u (pad + t)) p := by
  rw [convStream, delayed_shift (fun t inside => qkvAt_padding inside), convStream]
  congr 1
  funext t
  exact qkvAt_shift t

theorem deltaInputAt_shift (t : Nat) :
    m.deltaInputAt pad u (pad + t) = m.deltaInputAt 0 (fun t => u (pad + t)) t := by
  have taps : (fun j => m.convStream pad u (pad + t + j)) =
      fun j => m.convStream 0 (fun t => u (pad + t)) (t + j) := by
    funext j
    rw [Nat.add_assoc, convStream_shift]
  rw [deltaInputAt, deltaInputAt, taps, decide_eq_true (Nat.le_add_right pad t), decide_eq_true (Nat.zero_le t)]

/-- A padded step writes nothing. -/
theorem deltaStep_padding (inside : t < pad) (s : DeltaState K) : (m.deltaStep (m.deltaInputAt pad u t) s).1 = s := by
  have padded : decide (pad ≤ t) = false := decide_eq_false (by omega)
  rw [deltaInputAt, padded]
  rfl

theorem recurAfter_padding (inside : t ≤ pad) : m.recurAfter pad u t = 0 :=
  stateAt_idle _ fun _ below => deltaStep_padding (by omega) 0

theorem convAfter_padding (inside : t ≤ pad) :
    m.convAfter pad u t = List.replicate (m.linearConvKernelDim - 1) 0 := by
  have blank : ∀ p, t ≤ p → p < t + (m.linearConvKernelDim - 1) → m.convStream pad u p = (fun _ => 0) p := by
    intro p _ below
    unfold convStream delayed
    split
    · rfl
    · exact qkvAt_padding (by omega)
  rw [convAfter, window_congr blank]
  simp [window]

theorem recurAfter_shift (t : Nat) : m.recurAfter pad u (pad + t) = m.recurAfter 0 (fun t => u (pad + t)) t := by
  have start := m.recurAfter_padding (u := u) (Nat.le_refl pad)
  rw [recurAfter] at start
  rw [recurAfter, stateAt_add, start, recurAfter]
  exact stateAt_congr fun t _ => by rw [deltaInputAt_shift]

theorem convAfter_shift (t : Nat) : m.convAfter pad u (pad + t) = m.convAfter 0 (fun t => u (pad + t)) t := by
  have moved : m.convStream 0 (fun t => u (pad + t)) = fun p => m.convStream pad u (p + pad) := by
    funext p
    rw [Nat.add_comm p pad, convStream_shift]
  rw [convAfter, convAfter, moved, window_shift]
  congr 1 <;> omega

theorem outputOf_shift (t : Nat) : m.outputOf pad u (pad + t) = m.outputOf 0 (fun t => u (pad + t)) t := by
  have start := m.recurAfter_padding (u := u) (Nat.le_refl pad)
  rw [recurAfter] at start
  rw [outputOf, outputAt_add, start, outputOf]
  congr 1
  exact outputAt_congr fun t _ => by rw [deltaInputAt_shift]

end padding

end GatedDeltaNet

/-! ### Runs -/

namespace BatchKVCache

/-- The states the cache keeps for row `b` of a linear layer. -/
def HoldsState {K : Type} (c : BatchKVCache (CacheRow K)) (layer b : Nat) (conv : ConvState K)
    (recur : DeltaState K) : Prop :=
  ∃ convs recurs, (c.layers.getD layer {}).convState = some convs ∧
    (c.layers.getD layer {}).recurState = some recurs ∧ convs[b]? = some (.conv conv) ∧ recurs[b]? = some (.recur recur)

theorem HoldsState.saved {K : Type} {c : BatchKVCache (CacheRow K)} {layer b : Nat} {conv : ConvState K}
    {recur : DeltaState K}
    (holds : c.HoldsState layer b conv recur) :
    ∃ convs recurs, (if c.hasLinearState layer then some (c.linearState layer) else none) = some (convs, recurs) ∧
      convs[b]? = some (.conv conv) ∧ recurs[b]? = some (.recur recur) := by
  obtain ⟨convs, recurs, convs_eq, recurs_eq, conv_b, recur_b⟩ := holds
  refine ⟨convs, recurs, ?_, conv_b, recur_b⟩
  rw [hasLinearState, linearState, convs_eq, recurs_eq]
  rfl

theorem setLinearState_layer {V : Type} {c : BatchKVCache V} {layer : Nat} (inside : layer < c.layers.length)
    (conv recur : List V) :
    ((c.setLinearState layer conv recur).layers.getD layer {}).convState = some conv ∧
    ((c.setLinearState layer conv recur).layers.getD layer {}).recurState = some recur := by
  have written : ((c.setLinearState layer conv recur).layers).getD layer {} =
      { c.layers.getD layer {} with convState := some conv, recurState := some recur } := by
    unfold setLinearState
    rw [← List.getElem_eq_getD (h := by rwa [List.length_set]), List.getElem_set_self]
  exact ⟨by rw [written], by rw [written]⟩

end BatchKVCache

/-- The slots of row `b`. -/
def KvArray.rowSlots {V : Type} (a : KvArray V) (b : Nat) : List V := window (a.get b) 0 a.cap

/-- The columns from `start` on, cut into calls of the given widths; `x b t` is row `b`'s input at column `t`. -/
def columnCalls {X : Type} (batch : Nat) (x : Nat → Nat → X) : (start : Nat) → (widths : List Nat) → List (KvArray X)
  | _, [] => []
  | start, n :: widths => ⟨batch, n, fun b s => x b (start + s)⟩ :: columnCalls batch x (start + n) widths

namespace GatedDeltaNet

variable {X K : Type} [Field K] {m : GatedDeltaNet X K}

section runs
variable {layer start : Nat} {leftPadding : List Int} {x : Nat → Nat → X} {c : BatchKVCache (CacheRow K)}

/-- The cache after `start` columns: nothing stored before the first call, then every row's states. -/
structure Reached (m : GatedDeltaNet X K) (layer : Nat) (leftPadding : List Int) (x : Nat → Nat → X) (start : Nat)
    (c : BatchKVCache (CacheRow K)) : Prop where
  inside : layer < c.layers.length
  idx : c.idx = start
  padding : c.leftPadding = leftPadding
  states : start = 0 ∧ c.hasLinearState layer = false ∨ ∀ b < leftPadding.length,
    c.HoldsState layer b (m.convAfter (leftPadding.getD b 0).toNat (x b) start)
      (m.recurAfter (leftPadding.getD b 0).toNat (x b) start)

/-- The next call continues every row's stream. -/
theorem Reached.continues (reached : m.Reached layer leftPadding x start c) (n : Nat) {b : Nat}
    (row : b < leftPadding.length) :
    m.Continues ⟨leftPadding.length, n, fun b s => x b (start + s)⟩
      (some ⟨leftPadding.length, n, fun b s => decide (c.leftPadding.getD b 0 ≤ c.idx + s)⟩)
      ((if c.hasLinearState layer then some (c.linearState layer) else none).map fun s => s.1.map CacheRow.convState)
      ((if c.hasLinearState layer then some (c.linearState layer) else none).map fun s => s.2.map CacheRow.recurState)
      b (leftPadding.getD b 0).toNat start (x b) where
  inside := row
  input _ _ := rfl
  real s _ := by
    rw [reached.padding, reached.idx, Option.map_some, Option.getD_some, decide_eq_decide, Int.toNat_le,
      Int.natCast_add]
  conv := by
    rcases reached.states with ⟨zero, empty⟩ | stored
    · rw [empty, zero]
      exact (convAfter_padding (Nat.zero_le _)).symm
    · obtain ⟨convs, recurs, saved, conv, _⟩ := (stored b row).saved
      simp [saved, initialConv, conv, CacheRow.convState]
  recur := by
    rcases reached.states with ⟨zero, empty⟩ | stored
    · rw [empty, zero]
      rfl
    · obtain ⟨convs, recurs, saved, _, recur⟩ := (stored b row).saved
      simp [saved, initialRecur, recur, CacheRow.recurState]

theorem forwardLinear_reached (reached : m.Reached layer leftPadding x start c) (n : Nat) :
    (m.Reached layer leftPadding x (start + n)
      ((m.forwardLinear layer ⟨leftPadding.length, n, fun b s => x b (start + s)⟩ c).2.advance n)) ∧
    ∀ b < leftPadding.length,
      (m.forwardLinear layer ⟨leftPadding.length, n, fun b s => x b (start + s)⟩ c).1.rowSlots b =
        window (m.outputOf (leftPadding.getD b 0).toNat (x b)) start (start + n) := by
  refine ⟨⟨?_, ?_, reached.padding, .inr fun b row => ?_⟩, fun b row => ?_⟩
  · exact (List.length_set ..).symm ▸ reached.inside
  · rw [BatchKVCache.advance, Int.natCast_add, ← reached.idx]
    rfl
  · obtain ⟨_, conv, recur⟩ := linearAttentionImpl_continues (reached.continues n row)
    obtain ⟨convs, recurs⟩ := BatchKVCache.setLinearState_layer reached.inside
      ((m.linearAttentionImpl _ _ _ _).2.1.map CacheRow.conv) ((m.linearAttentionImpl _ _ _ _).2.2.map CacheRow.recur)
    refine ⟨_, _, convs, recurs, ?_, ?_⟩
    · rw [List.getElem?_map, conv, Option.map_some]
    · rw [List.getElem?_map, recur, Option.map_some]
  · obtain ⟨outputs, _, _⟩ := linearAttentionImpl_continues (reached.continues n row)
    have shifted := window_shift (m.outputOf (leftPadding.getD b 0).toNat (x b)) start 0 n
    rw [Nat.zero_add, Nat.add_comm n start] at shifted
    rw [← shifted]
    apply window_congr
    intro s _ below
    rw [Nat.add_comm s start]
    exact outputs s below

theorem forwardCalls_reached (reached : m.Reached layer leftPadding x start c) (widths : List Nat) :
    m.Reached layer leftPadding x (start + widths.sum)
      (m.forwardCalls layer (columnCalls leftPadding.length x start widths) c).2 ∧
    ∀ b < leftPadding.length,
      (m.forwardCalls layer (columnCalls leftPadding.length x start widths) c).1.flatMap (·.rowSlots b) =
        window (m.outputOf (leftPadding.getD b 0).toNat (x b)) start (start + widths.sum) := by
  induction widths generalizing start c with
  | nil => exact ⟨reached, fun b _ => (window_self _ start).symm⟩
  | cons n widths ih =>
    obtain ⟨next, outputs⟩ := forwardLinear_reached reached n
    obtain ⟨last, rest⟩ := ih next
    rw [List.sum_cons, ← Nat.add_assoc]
    refine ⟨last, fun b row => ?_⟩
    rw [columnCalls, forwardCalls, List.flatMap_cons]
    exact (congrArg₂ (· ++ ·) (outputs b row) (rest b row)).trans
      (window_append _ (Nat.le_add_right start n) (Nat.le_add_right _ _))

theorem new_reached {kStep nLayers : Nat} (q : KVQuantConfig) (inside : layer < nLayers) :
    m.Reached layer leftPadding x 0 (BatchKVCache.new kStep nLayers leftPadding q) where
  inside := by rwa [BatchKVCache.new, List.length_replicate]
  idx := rfl
  padding := rfl
  states := by
    refine .inl ⟨rfl, ?_⟩
    simp [BatchKVCache.hasLinearState, BatchKVCache.new, inside]

end runs

/-- A sequence alone: one row without padding, from the zero state. -/
theorem linearAttention_alone (n : Nat) (u : Nat → X) :
    (m.linearAttention ⟨1, n, fun _ => u⟩ none).1.rowSlots 0 = window (m.outputOf 0 u) 0 n ∧
    (m.linearAttention ⟨1, n, fun _ => u⟩ none).2.1[0]? = some (m.convAfter 0 u n) ∧
    (m.linearAttention ⟨1, n, fun _ => u⟩ none).2.2[0]? = some (m.recurAfter 0 u n) := by
  have continues : m.Continues ⟨1, n, fun _ => u⟩ none none none 0 0 0 u := {
    inside := Nat.one_pos
    input s _ := by rw [Nat.zero_add]
    real _ _ := rfl
    conv := (convAfter_padding (Nat.le_refl 0)).symm
    recur := rfl }
  obtain ⟨outputs, conv, recur⟩ := linearAttentionImpl_continues continues
  rw [Nat.zero_add] at conv recur
  refine ⟨window_congr fun s _ below => ?_, conv, recur⟩
  rw [← Nat.zero_add s, ← outputs s below, Nat.zero_add]
  rfl

/-- At every split of the columns into calls, a row's outputs past its padding and its two states are those of its
real inputs alone in one pass; a row still in its padding has the zero states. -/
theorem linearAttention_invariant (m : GatedDeltaNet X K) {kStep nLayers layer : Nat} (leftPadding : List Int)
    (q : KVQuantConfig) (x : Nat → Nat → X) (widths : List Nat) (inside : layer < nLayers) {b : Nat} (row : b < leftPadding.length) :
    let calls := m.forwardCalls layer (columnCalls leftPadding.length x 0 widths)
      (BatchKVCache.new kStep nLayers leftPadding q)
    let pad := (leftPadding.getD b 0).toNat
    let alone := m.linearAttention ⟨1, widths.sum - pad, fun _ t => x b (pad + t)⟩ none
    (calls.1.flatMap (·.rowSlots b)).drop pad = alone.1.rowSlots 0 ∧
    (pad < widths.sum → ∃ conv recur, alone.2.1[0]? = some conv ∧ alone.2.2[0]? = some recur ∧
      calls.2.HoldsState layer b conv recur) ∧
    (0 < widths.sum → widths.sum ≤ pad →
      calls.2.HoldsState layer b (.replicate (m.linearConvKernelDim - 1) 0) 0) := by
  intro calls pad alone
  obtain ⟨reached, outputs⟩ := forwardCalls_reached (m.new_reached q inside) widths
  obtain ⟨aloneOutputs, conv, recur⟩ := m.linearAttention_alone (widths.sum - pad) fun t => x b (pad + t)
  rw [Nat.zero_add] at reached outputs
  have states (some : 0 < widths.sum) : calls.2.HoldsState layer b (m.convAfter pad (x b) widths.sum)
      (m.recurAfter pad (x b) widths.sum) := by
    rcases reached.states with ⟨none, _⟩ | stored
    · omega
    · exact stored b row
  refine ⟨?_, fun real => ?_, fun some padded => ?_⟩
  · have moved : m.outputOf 0 (fun t => x b (pad + t)) = fun t => m.outputOf pad (x b) (t + pad) := by
      funext t
      rw [Nat.add_comm t pad, outputOf_shift]
    refine Eq.trans ?_ aloneOutputs.symm
    rw [outputs b row, window_drop, Nat.zero_add, moved, window_shift, Nat.zero_add]
    by_cases short : widths.sum ≤ pad
    · rw [window_empty short, window_empty (by omega)]
    · rw [Nat.sub_add_cancel (by omega)]
  · have whole : pad + (widths.sum - pad) = widths.sum := by omega
    refine ⟨_, _, conv, recur, ?_⟩
    rw [← convAfter_shift, ← recurAfter_shift, whole]
    exact states (by omega)
  · rw [← m.convAfter_padding (u := x b) padded, ← m.recurAfter_padding (u := x b) padded]
    exact states some

/-- One head of one feature, a kernel of two taps. -/
def oneFeature : GatedDeltaNet ℚ ℚ where
  linearNumKeyHeads := 1
  linearNumValueHeads := 1
  linearKeyHeadDim := 1
  linearValueHeadDim := 1
  linearConvKernelDim := 2
  rmsEps := 0
  kernels := { exp := fun x => x, sigmoid := fun x => x, softplus := fun x => x, rsqrt := fun _ => 1 }
  inputLayernorm x := x
  inProjQkv x c := x + c
  inProjZ x _ := x
  inProjA x _ := x
  inProjB x _ := x
  conv1dWeight _ j := j + 1
  aLog _ := 1
  dtBias _ := 0
  normWeight _ := 1
  outProj y := y 0
  grouped := ⟨Nat.one_pos, Nat.dvd_refl 1⟩
  kernel_pos := Nat.two_pos

theorem linearAttention_invariant_oneFeature :
    let calls := oneFeature.forwardCalls 0 (columnCalls 2 (fun b t => (b + t : ℚ)) 0 [3, 1])
      (BatchKVCache.new 256 1 [0, 2])
    let alone := oneFeature.linearAttention ⟨1, 2, fun _ t => (1 + (2 + t : Nat) : ℚ)⟩ none
    (calls.1.flatMap (·.rowSlots 1)).drop 2 = alone.1.rowSlots 0 ∧
    ∃ conv recur, alone.2.1[0]? = some conv ∧ alone.2.2[0]? = some recur ∧ calls.2.HoldsState 0 1 conv recur := by
  obtain ⟨outputs, states, _⟩ := @linearAttention_invariant ℚ ℚ _ oneFeature 256 1 0 [0, 2] {}
    (fun b t => (b + t : ℚ)) [3, 1] (by decide) 1 (by decide)
  have real : ((([0, 2] : List Int).getD 1 0).toNat) < [3, 1].sum := by decide
  obtain ⟨conv, recur, conv_eq, recur_eq, holds⟩ := states real
  refine ⟨?_, conv, recur, ?_, ?_, holds⟩
  · simpa using outputs
  · simpa using conv_eq
  · simpa using recur_eq

end GatedDeltaNet

end Mlxforge
