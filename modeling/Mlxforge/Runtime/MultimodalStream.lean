import Mlxforge.Cache.RowSeed
import Mlxforge.Model.MropeRotation
import Mlxforge.Runtime.EngineSalt
import Mlxforge.Runtime.SingleStream

/-!
Greedy generation from a prompt with images, over one sequence and through the batched cache: the prefilled keys and values are
adopted as a batch of one row whose next position is one past the prompt's largest.
-/

namespace Mlxforge

variable {V H Q L : Type}

/-- The logits of column `n - 1`, reshaped to one row. -/
def lastLogits (logits : KvArray L) (n : Nat) : Except Fault L :=
  if n = 0 then .error .reshape else .ok (logits.get 0 (n - 1))

/-- `max(position_ids) + 1`. -/
def nextPosition (positionIds : PositionIds) : Except Fault Nat :=
  match positionIds.decodeOffset with
  | some position => .ok position
  | none => .error .reshape

section
variable (greedy : L → Int) (m : Qwen3VLModel V H Q L)

/-- The decode loop of `greedy_generate_multimodal`, `remaining` turns to go. -/
def multimodalLoop (eosIds : List Int) : (remaining : Nat) → (next : Int) → (pos : Nat) → KVCache V → GenerateResult →
    Except Fault GenerateResult
  | 0, _, _, _, result => .ok result
  | remaining + 1, next, pos, cache, result =>
    if eosIds.contains next then .ok { result with hitEos := true }
    else do
      let result := { result with tokens := result.tokens ++ [next] }
      let (logits, cache) ← m.decodeStep next pos cache
      multimodalLoop eosIds remaining (greedy logits) (pos + 1) cache result

def greedyGenerateMultimodal (promptIds : List Int) (features : List H) (deepstack : List (List H)) (positionIds : PositionIds)
    (maxTokens : Int) (eosIds : List Int) : Except Fault GenerateResult := do
  let (logits, cache) ← m.prefill promptIds features deepstack positionIds (.new m.nLayers)
  let last ← lastLogits logits logits.cap
  let pos ← nextPosition positionIds
  let result ← multimodalLoop greedy m eosIds maxTokens.toNat (greedy last) pos cache {}
  return { result with decodeTokens := result.tokens.length - 1 }

def prefillMultimodalBatched (promptIds : List Int) (features : List H) (deepstack : List (List H)) (positionIds : PositionIds) :
    Except Fault (BatchKVCache V × L) := do
  let (logits, kv) ← m.prefill promptIds features deepstack positionIds (.new m.nLayers)
  let last ← lastLogits logits promptIds.length
  let decodeOffset ← nextPosition positionIds
  let kvPerLayer ← (List.range kv.layers.length).mapM kv.fetch
  return (.fromSingleSequence 256 kvPerLayer promptIds.length decodeOffset, last)

variable [Slot V]

/-- The decode loop of `greedy_generate_multimodal_batched`, on the batched forward pass. -/
def multimodalBatchedLoop (eosIds : List Int) : (remaining : Nat) → (next : Int) → BatchKVCache V → GenerateResult →
    Except Fault GenerateResult
  | 0, _, _, result => .ok result
  | remaining + 1, next, cache, result =>
    if eosIds.contains next then .ok { result with hitEos := true }
    else do
      let result := { result with tokens := result.tokens ++ [next] }
      let (logits, cache) ← m.forward ⟨1, 1, fun _ _ => next⟩ cache
      multimodalBatchedLoop eosIds remaining (greedy (logits.get 0 0)) cache result

def greedyGenerateMultimodalBatched (promptIds : List Int) (features : List H) (deepstack : List (List H))
    (positionIds : PositionIds) (maxTokens : Int) (eosIds : List Int) : Except Fault GenerateResult := do
  let (cache, last) ← prefillMultimodalBatched m promptIds features deepstack positionIds
  multimodalBatchedLoop greedy m eosIds maxTokens.toNat (greedy last) cache {}

end

/-! ### The adopted row -/

namespace Qwen3VLModel

/-- Every layer of a prefilled cache is fetched as the arrays it stores. -/
theorem Occupied.fetch {nLayers seq : Nat} {c : KVCache V} (filled : Occupied nLayers seq c) :
    ∃ kvs, (List.range c.layers.length).mapM c.fetch = .ok kvs ∧
      List.Forall₂ (fun l kv => l = { keys := [kv.1], values := [kv.2] } ∧ (kv.1.batch = 1 ∧ kv.1.cap = seq) ∧
        kv.2.batch = 1 ∧ kv.2.cap = seq) c.layers kvs := by
  have dense : c.quantized = false := by rw [KVCache.quantized, filled.dense]; rfl
  have each : ∀ i ∈ List.range c.layers.length, ∃ kv, c.fetch i = .ok kv ∧
      c.layers[i]? = some { keys := [kv.1], values := [kv.2] } ∧ (kv.1.batch = 1 ∧ kv.1.cap = seq) ∧ kv.2.batch = 1 ∧
        kv.2.cap = seq := by
    intro i member
    have inside := List.mem_range.mp member
    obtain ⟨k, v, written, kShape, vShape⟩ := filled.written _ (List.getElem_mem inside)
    have current := (List.getElem?_eq_getElem inside).trans (congrArg some written)
    have read : c.layers.getD i {} = { keys := [k], values := [v] } := by
      rw [List.getD_eq_getElem?_getD, current, Option.getD_some]
    exact ⟨(k, v), by rw [KVCache.fetch, dense, read]; rfl, current, kShape, vShape⟩
  obtain ⟨kvs, ok, related⟩ := mapM_forall₂ each
  refine ⟨kvs, ok, List.forall₂_iff_get.mpr ⟨by rw [← related.length_eq, List.length_range], fun i h₁ h₂ => ?_⟩⟩
  obtain ⟨current, shapes⟩ := (List.forall₂_iff_get.mp related).2 i (by rw [List.length_range]; exact h₁) h₂
  simp only [List.get_eq_getElem, List.getElem_range] at current
  rw [List.getElem?_eq_getElem h₁] at current
  exact ⟨Option.some.inj current, shapes⟩

variable [Slot V]

/-- A batch of one unpadded row. -/
structure SoleRow (nLayers : Nat) (row : RowHistory V) (c : BatchKVCache V) : Prop where
  wf : c.Wf
  batch : c.batch = 1
  layers : c.layers.length = nLayers
  dense : c.qcfg = {}
  row : c.row 0 = row

theorem Occupied.adopt {nLayers seq p : Nat} {c : KVCache V} (filled : Occupied nLayers seq c) :
    ∃ kvs, (List.range c.layers.length).mapM c.fetch = .ok kvs ∧
      SoleRow nLayers (rowAt seq p c) (BatchKVCache.fromSingleSequence 256 kvs seq p) := by
  obtain ⟨kvs, ok, stored⟩ := filled.fetch
  obtain ⟨wf, -, rows⟩ := @BatchKVCache.fromSingleSequence_spec V 256 seq kvs (p : Int) _
    (Nat.zero_lt_succ 255) fun kv member => by
      obtain ⟨l, -, -, ⟨kBatch, kCap⟩, vBatch, vCap⟩ := exists_of_forall₂_right stored member
      exact ⟨kBatch, vBatch, kCap.ge, vCap.ge⟩
  have views : kvs.map (fun kv => window (chunkEntry {} kv 0) 0 seq) = c.layers.map fun l => l.view 0 0 seq := by
    refine (map_eq_of_forall₂ (stored.imp ?_)).symm
    rintro l kv ⟨rfl, -⟩
    rfl
  refine ⟨kvs, ok, wf, rfl, ?_, rfl, ?_⟩
  · rw [← filled.layers, stored.length_eq]
    exact List.length_map _
  · have first : (BatchKVCache.fromSingleSequence 256 kvs seq (p : Int)).rows[0]? = some (rowAt seq p c) := by
      rw [rows, views]
      rfl
    obtain ⟨inside, first⟩ := List.getElem?_eq_some_iff.mp first
    exact (BatchKVCache.rows_getElem inside).symm.trans first

end Qwen3VLModel

/-! ### The two loops -/

section
variable {greedy : L → Int} {m : Qwen3VLModel V H Q L} [Slot V]

open Qwen3VLModel

/-- A pass over a batch of one row feeds it its token. -/
theorem Qwen3VLModel.SoleRow.forward {row row' : RowHistory V} {c : BatchKVCache V} {token : Int} {logits : L}
    (sole : SoleRow m.nLayers row c) (step : m.rowStep {} row token = (row', some logits)) :
    ∃ out c', m.forward ⟨1, 1, fun _ _ => token⟩ c = .ok (out, c') ∧ SoleRow m.nLayers row' c' ∧ out.get 0 0 = logits := by
  obtain ⟨out, c', ok, wf, -, -, -, batch, layers, qcfg, -, -, fed⟩ := DecoderModel.forward_spec (m := m.toDecoderModel)
    (⟨1, 1, fun _ _ => token⟩ : KvArray Int) sole.wf sole.layers sole.batch.symm Nat.one_pos
  have fed := fed 0 (by rw [sole.batch]; exact Nat.one_pos) none
  rw [sole.row, sole.dense] at fed
  have run : m.rowRun {} (row, none) (window (fun _ => token) 0 1) = (row', some logits) := step
  rw [show window ((⟨1, 1, fun _ _ => token⟩ : KvArray Int).get 0) 0 1 = window (fun _ => token) 0 1 from rfl, run] at fed
  obtain ⟨same, value⟩ := Prod.mk.inj fed
  refine ⟨out, c', ok, ⟨wf, batch.trans sole.batch, layers.trans sole.layers, qcfg.trans sole.dense, same.symm⟩, ?_⟩
  split at value
  · exact (Option.some.inj value).symm
  · cases value

/-- From the same row, the two loops take the same turns. -/
theorem multimodalBatchedLoop_eq (text : m.TextRope) (eosIds : List Int) (remaining : Nat) {next : Int} {n pos : Nat}
    {c : KVCache V} {b : BatchKVCache V} (filled : Occupied m.nLayers n c) (sole : SoleRow m.nLayers (rowAt n pos c) b)
    (result : GenerateResult) :
    multimodalBatchedLoop greedy m eosIds remaining next b result = multimodalLoop greedy m eosIds remaining next pos c result := by
  induction remaining generalizing next n pos c b result with
  | zero => rfl
  | succ remaining ih =>
    rw [multimodalBatchedLoop, multimodalLoop]
    by_cases stops : eosIds.contains next = true
    · rw [if_pos stops, if_pos stops]
    · rw [if_neg stops, if_neg stops]
      obtain ⟨logits, c', ok, filled', step⟩ := decodeStep_row (p := pos) text filled next
      obtain ⟨out, b', batchedOk, sole', value⟩ := SoleRow.forward sole step
      simp only [ok, batchedOk, ok_bind, value]
      exact ih filled' sole' _

omit [Slot V] in
/-- The loop leaves the count of decoded tokens alone. -/
theorem multimodalLoop_decodeTokens (eosIds : List Int) {remaining : Nat} {next : Int} {pos : Nat} {c : KVCache V}
    {result after : GenerateResult} (ok : multimodalLoop greedy m eosIds remaining next pos c result = .ok after) :
    after.decodeTokens = result.decodeTokens := by
  induction remaining generalizing next pos c result with
  | zero => rw [← Except.ok.inj ok]
  | succ remaining ih =>
    rw [multimodalLoop] at ok
    split at ok
    · rw [← Except.ok.inj ok]
    · obtain ⟨⟨logits, c'⟩, _, ok⟩ := bind_ok ok
      rw [ih ok]

/-- Through the batched cache a prompt with images generates what it does over one sequence, and throws when that throws. -/
theorem multimodal_batched_eq (text : m.TextRope) (promptIds : List Int) (features : List H) (deepstack : List (List H))
    (positionIds : PositionIds) (maxTokens : Int) (eosIds : List Int) :
    greedyGenerateMultimodalBatched greedy m promptIds features deepstack positionIds maxTokens eosIds =
      (fun result => { result with decodeTokens := 0 }) <$>
        greedyGenerateMultimodal greedy m promptIds features deepstack positionIds maxTokens eosIds := by
  apply Alike.map_eq
  have prefilled := prefill_fresh (m := m) promptIds features deepstack positionIds
  simp only [greedyGenerateMultimodal, greedyGenerateMultimodalBatched, prefillMultimodalBatched, bind_assoc]
  refine .bind_self fun r written => ?_
  obtain ⟨logits, kv⟩ := r
  rw [written] at prefilled
  generalize m.forwardMultimodal promptIds features deepstack positionIds = bare at prefilled
  cases prefilled with
  | ok related =>
    obtain ⟨rfl, cap, filled⟩ := related
    rw [show logits.cap = promptIds.length from cap]
    refine .bind_self fun last _ => .bind_self fun pos _ => ?_
    obtain ⟨kvs, fetched, sole⟩ := filled.adopt (p := pos)
    simp only [fetched, ok_bind, pure_bind]
    rw [multimodalBatchedLoop_eq text eosIds maxTokens.toNat filled sole]
    cases looped : multimodalLoop greedy m eosIds maxTokens.toNat (greedy last) pos kv {} with
    | error e => exact .error e
    | ok after =>
      cases after with
      | mk tokens records hitEos decoded =>
        obtain rfl : decoded = 0 := multimodalLoop_decodeTokens eosIds looped
        exact .ok rfl

/-- The same of a model made from a vision checkpoint whose frequencies are not rescaled. -/
theorem created_multimodal_batched [Slot Heads] (greedy : List ℝ → Int) {cfg : ModelConfig} {w : Weights} {imageTokenId : Int}
    {hidden : Nat} {m : Qwen3VLModel Heads (List ℝ) Heads (List ℝ)} (ok : createQwen3VL cfg w imageTokenId hidden = .ok m)
    (vision : cfg.hasVisionTower = true) (unbaked : cfg.ropeFreqFactors = none)
    (unscaled : ∀ rs, cfg.ropeScaling = some rs → rs.ropeType ≠ "llama3") (promptIds : List Int) (features : List (List ℝ))
    (deepstack : List (List (List ℝ))) (positionIds : PositionIds) (maxTokens : Int) (eosIds : List Int) :
    greedyGenerateMultimodalBatched greedy m promptIds features deepstack positionIds maxTokens eosIds =
      (fun result => { result with decodeTokens := 0 }) <$>
        greedyGenerateMultimodal greedy m promptIds features deepstack positionIds maxTokens eosIds :=
  multimodal_batched_eq (createQwen3VL_textRope ok vision unbaked unscaled) promptIds features deepstack positionIds maxTokens
    eosIds

/-- One layer of one head of two dimensions, its single frequency on the temporal axis. -/
noncomputable def visionConfig : ModelConfig where
  modelType := "qwen3_vl"
  nLayers := 1
  headDim := 2
  ropeTheta := Engine.flatCheckpoint.config.ropeTheta
  hasVisionTower := true
  mropeSection := [1, 0, 0]

theorem computeRopeSetup_visionConfig :
    computeRopeSetup visionConfig = .ok { freqs := baseFreqs visionConfig.headDim visionConfig.ropeTheta } := rfl

/-- A prompt of three tokens, the middle one an image. -/
theorem created_multimodal_batched_image :
    ∃ m, createQwen3VL visionConfig Engine.flatWeights 9 2 = .ok m ∧
      greedyGenerateMultimodalBatched (fun _ => 7) m [5, 9, 6] [[3, 4]] [] (mropePositionIds [5, 9, 6] [⟨1, 2, 2⟩] 2 9) 3 [8] =
        (fun result => { result with decodeTokens := 0 }) <$>
          greedyGenerateMultimodal (fun _ => 7) m [5, 9, 6] [[3, 4]] [] (mropePositionIds [5, 9, 6] [⟨1, 2, 2⟩] 2 9) 3 [8] := by
  obtain ⟨m, made⟩ : ∃ m, createQwen3VL visionConfig Engine.flatWeights 9 2 = .ok m := by
    rw [createQwen3VL, createModel, computeRopeSetup_visionConfig]
    exact ⟨_, rfl⟩
  exact ⟨m, made, created_multimodal_batched _ made rfl rfl nofun _ _ _ _ _ _⟩

end

end Mlxforge
