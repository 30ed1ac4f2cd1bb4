import Mlxforge.Lib.Generation
import Mlxforge.Model.SingleForward
import Mlxforge.Runtime.PrefillAgreement
import Mlxforge.Scheduler.Request

/-!
The command line's generation loop over one sequence: prefill, then one greedy token at a time. Every token it emits is the
greedy choice after feeding everything ahead of it to a row of its own.
-/

namespace Mlxforge

variable {V H Q L K : Type}

/-- `GenerateResult` without its timings. -/
structure GenerateResult where
  tokens : List Int := []
  tokenLogprobs : List (TokenLogprob Rat) := []
  hitEos : Bool := false
  decodeTokens : Nat := 0

/-- The calls into the sampler: `Sampler::greedy`, `Sampler::sample` with a history, and `mx::random::key`. -/
structure SamplerCalls (L K : Type) where
  greedy : L → Int
  sample : L → SamplingParams → K → List Int → Except Fault (Int × TokenLogprob Rat)
  key : UInt64 → K

/-- At temperature 0 and without penalties, `sample` takes the greedy token and reports `record` of the logits. -/
def SamplerCalls.Greedy (calls : SamplerCalls L K) (record : L → Int → TokenLogprob Rat) : Prop :=
  ∀ l (params : SamplingParams) key, params.temperature ≤ 0 → params.hasPenalties = false →
    calls.sample l params key [] = .ok (calls.greedy l, record l params.topLogprobs)

section
variable (calls : SamplerCalls L K)

/-- The token after the last position; with `wantLp` also its log-prob record. -/
def greedyLast (logits : KvArray L) (topLogprobs : Int) (wantLp : Bool) : Except Fault (Int × Option (TokenLogprob Rat)) :=
  if logits.cap = 0 then .error .reshape
  else
    let last := logits.get 0 (logits.cap - 1)
    if wantLp then do
      let (id, lp) ← calls.sample last { temperature := 0, topLogprobs } (calls.key 0) []
      return (id, some lp)
    else .ok (calls.greedy last, none)

variable (m : DecoderModel V H Q L) [Slot V]

/-- The decode loop, `remaining` turns to go: `next` is sampled and not emitted yet. -/
def greedyLoop (eosIds : List Int) (topLogprobs : Int) : (remaining : Nat) → (next : Int) →
    (nextLp : Option (TokenLogprob Rat)) → Option (KVCache V) → GenerateResult → Except Fault GenerateResult
  | 0, _, _, _, result => .ok result
  | remaining + 1, next, nextLp, cache, result =>
    if eosIds.contains next then .ok { result with hitEos := true }
    else do
      let result := { result with
        tokens := result.tokens ++ [next], tokenLogprobs := result.tokenLogprobs ++ nextLp.toList }
      let (logits, cache) ← m.forwardSingle ⟨1, 1, fun _ _ => next⟩ cache
      let (next, nextLp) ← greedyLast calls logits topLogprobs (0 ≤ topLogprobs)
      greedyLoop eosIds topLogprobs remaining next nextLp cache result

def greedyGenerate (promptIds : List Int) (maxTokens : Int) (eosIds : List Int) (topLogprobs : Int := -1)
    (kvQuant : KVQuantConfig := {}) : Except Fault GenerateResult := do
  let cache := KVCache.new m.nLayers kvQuant
  let prompt : KvArray Int := ⟨1, promptIds.length, fun _ j => promptIds.getD j 0⟩
  let (logits, cache) ← m.forwardSingle prompt (some cache)
  let (next, nextLp) ← greedyLast calls logits topLogprobs (0 ≤ topLogprobs)
  let result ← greedyLoop calls m eosIds topLogprobs maxTokens.toNat next nextLp cache {}
  return { result with decodeTokens := result.tokens.length - 1 }

end

/-! ### What it emits -/

namespace DecoderModel

variable (m : DecoderModel V H Q L) [Slot V] (q : KVQuantConfig)

/-- The logits after feeding `context` to a row of its own. -/
def logitsAfter (context : List Int) : L := (m.solo q context).2.getD m.zeroLogits

def greedyNext (greedy : L → Int) (context : List Int) : Int := greedy (m.logitsAfter q context)

/-- The log-prob records of the tokens `ts` behind `context`. -/
def records (record : L → TokenLogprob Rat) (context ts : List Int) : List (TokenLogprob Rat) :=
  (List.range ts.length).map fun i => record (m.logitsAfter q (context ++ ts.take i))

variable {m q}

theorem records_append (record : L → TokenLogprob Rat) (context ts : List Int) (t : Int) :
    m.records q record context (ts ++ [t]) = m.records q record context ts ++ [record (m.logitsAfter q (context ++ ts))] := by
  rw [records, List.length_append, List.length_singleton, List.range_succ, List.map_append, List.map_singleton,
    List.take_left']
  · congr 1
    apply List.map_congr_left
    intro i inside
    rw [List.take_append_of_le_length (List.mem_range.mp inside).le]
  · rfl

/-- A single-sequence cache that was fed `context`. -/
structure Fed (m : DecoderModel V H Q L) (q : KVQuantConfig) (context : List Int) (c : KVCache V) : Prop where
  wf : c.Wf
  layers : c.layers.length = m.nLayers
  qcfg : c.qcfg = q
  row : c.asBatch.row 0 = (m.solo q context).1

theorem fed_new (m : DecoderModel V H Q L) (q : KVQuantConfig) : m.Fed q [] (KVCache.new m.nLayers q) where
  wf := KVCache.new_wf m.nLayers q
  layers := List.length_replicate
  qcfg := rfl
  row := KVCache.new_row m.nLayers q

/-- A pass over one sequence appends its tokens to the context. -/
theorem Fed.forward {context tokens : List Int} {c : KVCache V} (fed : m.Fed q context c) (some : tokens ≠ []) {x : KvArray Int}
    (batch : x.batch = 1) (cap : x.cap = tokens.length) (columns : window (x.get 0) 0 tokens.length = tokens) :
    ∃ logits c', m.forwardSingle x (.some c) = .ok (logits, .some c') ∧ m.Fed q (context ++ tokens) c' ∧
      logits.cap = tokens.length ∧ logits.get 0 (logits.cap - 1) = m.logitsAfter q (context ++ tokens) := by
  obtain ⟨logits, c', ok, wf, layers, qcfg, -, lCap, run⟩ := forwardSingle_spec (m := m) fed.wf fed.layers batch
  have positive := List.length_pos_of_ne_nil some
  have run := run (m.solo q context).2
  rw [cap, columns, fed.qcfg, fed.row, Prod.mk.eta, solo_append, if_neg (Nat.ne_of_gt positive)] at run
  refine ⟨logits, c', ok, ⟨wf, layers.trans fed.layers, qcfg.trans fed.qcfg, by rw [run]⟩, lCap.trans cap, ?_⟩
  rw [logitsAfter, run, lCap, cap]
  rfl

end DecoderModel

section
variable {calls : SamplerCalls L K} {record : L → Int → TokenLogprob Rat} {m : DecoderModel V H Q L} [Slot V] {q : KVQuantConfig}

theorem greedyLast_spec (samples : calls.Greedy record) {logits : KvArray L} (some : 0 < logits.cap) (topLogprobs : Int) :
    greedyLast calls logits topLogprobs (0 ≤ topLogprobs) =
      .ok (calls.greedy (logits.get 0 (logits.cap - 1)),
        if 0 ≤ topLogprobs then .some (record (logits.get 0 (logits.cap - 1)) topLogprobs) else none) := by
  rw [greedyLast, if_neg (Nat.ne_of_gt some)]
  by_cases want : 0 ≤ topLogprobs
  · have sampled := samples (logits.get 0 (logits.cap - 1)) { temperature := 0, topLogprobs } (calls.key 0) le_rfl rfl
    simp only [want, decide_true, if_true, sampled, ok_bind]
    rfl
  · simp only [want, decide_false, Bool.false_eq_true, if_false]

/-- The records a request for `topLogprobs` gets. -/
def wantedRecords (m : DecoderModel V H Q L) (q : KVQuantConfig) (record : L → Int → TokenLogprob Rat) (topLogprobs : Int)
    (prompt ts : List Int) : List (TokenLogprob Rat) :=
  if 0 ≤ topLogprobs then m.records q (record · topLogprobs) prompt ts else []

theorem wantedRecords_append (topLogprobs : Int) (prompt ts : List Int) (t : Int) :
    wantedRecords m q record topLogprobs prompt (ts ++ [t]) = wantedRecords m q record topLogprobs prompt ts ++
      (if 0 ≤ topLogprobs then .some (record (m.logitsAfter q (prompt ++ ts)) topLogprobs) else none).toList := by
  unfold wantedRecords
  split
  · rw [DecoderModel.records_append]
    rfl
  · rfl

theorem wantedRecords_prefix {topLogprobs : Int} {prompt ts ts' : List Int} (part : ts <+: ts') :
    wantedRecords m q record topLogprobs prompt ts <+: wantedRecords m q record topLogprobs prompt ts' := by
  obtain ⟨rest, rfl⟩ := part
  induction rest using List.reverseRecOn with
  | nil => rw [List.append_nil]
  | append_singleton rest t ih =>
    rw [← List.append_assoc, wantedRecords_append]
    exact ih.trans (List.prefix_append _ _)

/-- The result for what was generated. -/
def generatedResult (m : DecoderModel V H Q L) (q : KVQuantConfig) (record : L → Int → TokenLogprob Rat) (topLogprobs : Int)
    (prompt : List Int) (answer : List Int × Bool) : GenerateResult where
  tokens := answer.1
  tokenLogprobs := wantedRecords m q record topLogprobs prompt answer.1
  hitEos := answer.2

theorem greedyLoop_spec (samples : calls.Greedy record) {eosIds : List Int} (topLogprobs : Int) {prompt ts : List Int} {n : Nat}
    {c : KVCache V} (fed : m.Fed q (prompt ++ ts) c)
    (underway : Generation.Underway (m.greedyNext q calls.greedy) eosIds.contains n prompt ts) :
    greedyLoop calls m eosIds topLogprobs (n - ts.length) (m.greedyNext q calls.greedy (prompt ++ ts))
        (if 0 ≤ topLogprobs then .some (record (m.logitsAfter q (prompt ++ ts)) topLogprobs) else none) (.some c)
        (generatedResult m q record topLogprobs prompt (ts, false)) =
      .ok (generatedResult m q record topLogprobs prompt
        (Generation.generate (m.greedyNext q calls.greedy) eosIds.contains n prompt)) := by
  generalize left : n - ts.length = remaining
  induction remaining generalizing ts c with
  | zero => rw [greedyLoop, underway.full (by omega)]
  | succ remaining ih =>
    have more : ts.length < n := by omega
    rw [greedyLoop]
    by_cases stops : eosIds.contains (m.greedyNext q calls.greedy (prompt ++ ts)) = true
    · rw [if_pos stops, underway.stopped more stops]
      rfl
    · rw [if_neg stops]
      have going := Bool.eq_false_iff.mpr stops
      obtain ⟨logits, c', ok, fed', lCap, last⟩ := fed.forward
        (List.cons_ne_nil (m.greedyNext q calls.greedy (prompt ++ ts)) []) (x := ⟨1, 1, fun _ _ => m.greedyNext q calls.greedy (prompt ++ ts)⟩) rfl rfl rfl
      have sampled := greedyLast_spec samples (show 0 < logits.cap by rw [lCap]; exact Nat.one_pos) topLogprobs
      rw [last] at sampled
      rw [List.append_assoc] at fed' sampled
      have rest := ih fed' (underway.emit more going) (by rw [List.length_append, List.length_singleton]; omega)
      simp only [ok, ok_bind, sampled]
      rw [← rest]
      congr 1
      simp only [generatedResult, wantedRecords_append]

/-- The loop emits what greedy generation gives, and never throws on a prompt. -/
theorem greedyGenerate_spec (samples : calls.Greedy record) {prompt : List Int} (some : prompt ≠ []) (maxTokens : Int)
    (eosIds : List Int) (topLogprobs : Int) (q : KVQuantConfig) :
    ∃ result, greedyGenerate calls m prompt maxTokens eosIds topLogprobs q = .ok result ∧
      (result.tokens, result.hitEos) =
        Generation.generate (m.greedyNext q calls.greedy) eosIds.contains maxTokens.toNat prompt ∧
      result.tokenLogprobs = wantedRecords m q record topLogprobs prompt result.tokens ∧
      result.decodeTokens = result.tokens.length - 1 := by
  have columns : window ((⟨1, prompt.length, fun _ j => prompt.getD j 0⟩ : KvArray Int).get 0) 0 prompt.length = prompt := by
    apply List.ext_getElem
    · simp
    · intro j _ inside
      simp [inside]
  obtain ⟨logits, c', ok, fed, lCap, last⟩ := (DecoderModel.fed_new m q).forward some
    (x := ⟨1, prompt.length, fun _ j => prompt.getD j 0⟩) rfl rfl columns
  have sampled := greedyLast_spec samples (show 0 < logits.cap by rw [lCap]; exact List.length_pos_of_ne_nil some) topLogprobs
  rw [last, List.nil_append] at sampled
  rw [List.nil_append] at fed
  have looped := greedyLoop_spec samples topLogprobs (by rw [List.append_nil]; exact fed)
    (.start (m.greedyNext q calls.greedy) eosIds.contains maxTokens.toNat prompt)
  rw [List.append_nil] at looped
  let answer := Generation.generate (m.greedyNext q calls.greedy) eosIds.contains maxTokens.toNat prompt
  let result := generatedResult m q record topLogprobs prompt answer
  refine ⟨{ result with decodeTokens := result.tokens.length - 1 }, ?_, rfl, rfl, rfl⟩
  unfold greedyGenerate
  simp only [ok, ok_bind, sampled]
  have start : (generatedResult m q record topLogprobs prompt ([], false)) = {} := by
    simp [generatedResult, wantedRecords, DecoderModel.records]
  rw [start] at looped
  rw [show greedyLoop calls m eosIds topLogprobs maxTokens.toNat (calls.greedy (m.logitsAfter q prompt)) _ _ {} = _ from looped]
  rfl

end

end Mlxforge
