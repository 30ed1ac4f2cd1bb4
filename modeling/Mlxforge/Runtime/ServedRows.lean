import Mlxforge.Cache.CacheProgram
import Mlxforge.Runtime.SingleStream
import Mlxforge.Runtime.Turns

/-!
What the worker serves from a text decoder: every row of the shared cache was fed a context of its own, and a greedy
request has emitted what single-stream generation emits behind its prompt.
-/

namespace Mlxforge

variable {V H Q L K G I : Type}

/-! ### The contexts of a shared cache -/

/-- Row `b` of the cache was fed `contexts[b]`, and nothing else. -/
structure DecoderModel.Holds [Slot V] (m : DecoderModel V H Q L) (q : KVQuantConfig) (contexts : List (List Int))
    (c : BatchKVCache V) : Prop where
  wf : c.Wf
  stocked : c.Stocked
  layers : c.layers.length = m.nLayers
  qcfg : c.qcfg = q
  rows : c.rows = contexts.map fun context => (m.solo q context).1

namespace DecoderModel.Holds

variable [Slot V] {m : DecoderModel V H Q L} {q : KVQuantConfig} {contexts others : List (List Int)} {c fresh : BatchKVCache V}

theorem batch (holds : m.Holds q contexts c) : c.batch = contexts.length := by
  rw [← BatchKVCache.rows_length, holds.rows, List.length_map]

theorem row (holds : m.Holds q contexts c) {b : Nat} (inside : b < contexts.length) :
    c.row b = (m.solo q contexts[b]).1 := by
  have there : b < c.rows.length := by rw [BatchKVCache.rows_length, holds.batch]; exact inside
  rw [← BatchKVCache.rows_getElem there]
  simp only [holds.rows, List.getElem_map]

/-- A row of its own has no padding left. -/
theorem unpadded (holds : m.Holds q contexts c) {b : Nat} (inside : b < contexts.length) : c.padding b ≤ c.idx := by
  have pad : (c.row b).pad = 0 := by rw [holds.row inside, solo_row]
  simp only [BatchKVCache.row] at pad
  omega

theorem of_prefilled {prompts : List (List Int)} {last : List L} (filled : Prefilled m q prompts c last) : m.Holds q prompts c where
  wf := filled.wf
  stocked := filled.stocked
  layers := filled.layers
  qcfg := filled.qcfg
  rows := by
    apply BatchKVCache.rows_ext
    · rw [filled.batch, List.length_map]
    · intro b inside
      rw [List.length_map] at inside
      have fed := (filled.row b prompts[b] (List.getElem?_eq_getElem inside)).1
      rw [List.getElem_map, ← fed]

theorem merge (holds : m.Holds q contexts c) (holds' : m.Holds q others fresh) :
    ∃ c', c.merge fresh = .ok c' ∧ m.Holds q (contexts ++ others) c' := by
  obtain ⟨c', ok, wf, stocked, rows, layers, qcfg, -⟩ := BatchKVCache.merge_spec holds.wf holds'.wf holds.stocked holds'.stocked
    (holds.qcfg.trans holds'.qcfg.symm) (holds.layers.trans holds'.layers.symm)
  exact ⟨c', ok, wf, stocked, layers.trans holds.layers, qcfg.trans holds.qcfg, by
    rw [rows, holds.rows, holds'.rows, List.map_append]⟩

theorem padDummies (holds : m.Holds q contexts c) (extra : Nat) :
    ∃ c', c.padDummies extra = .ok c' ∧ m.Holds q (contexts ++ List.replicate extra []) c' := by
  obtain ⟨c', ok, wf, stocked, rows, layers, qcfg, -, -⟩ := BatchKVCache.padDummies_spec holds.wf extra
  refine ⟨c', ok, wf, stocked holds.stocked, layers.trans holds.layers, qcfg.trans holds.qcfg, ?_⟩
  rw [rows, holds.rows, holds.layers, List.map_append, List.map_replicate]
  rfl

theorem filter (holds : m.Holds q contexts c) {keep : List Nat} (some : keep ≠ []) (inside : ∀ i ∈ keep, i < contexts.length) :
    m.Holds q (keep.map fun i => contexts.getD i []) (c.filter keep) := by
  obtain ⟨wf, stocked, rows, layers, qcfg, -⟩ := BatchKVCache.filter_spec holds.wf some
    (fun i member => by rw [holds.batch]; exact inside i member) fun i member => holds.unpadded (inside i member)
  refine ⟨wf, stocked holds.stocked, layers.trans holds.layers, qcfg.trans holds.qcfg, ?_⟩
  rw [rows, List.map_map]
  refine List.map_congr_left fun i member => ?_
  rw [holds.row (inside i member), Function.comp_apply, ← List.getElem_eq_getD (h := inside i member)]

/-- One decode pass feeds every row one token more. -/
theorem forward (holds : m.Holds q contexts c) {fed : List Int} (count : fed.length = contexts.length) {x : KvArray Int}
    (rows : x.batch = contexts.length) (cap : x.cap = 1) (columns : ∀ b, x.get b 0 = fed.getD b 0) :
    ∃ logits c', m.forward x c = .ok (logits, c') ∧ logits.batch = contexts.length ∧
      m.Holds q (List.zipWith (fun context t => context ++ [t]) contexts fed) c' ∧
      ∀ b context t, contexts[b]? = some context → fed[b]? = some t → logits.get b 0 = m.logitsAfter q (context ++ [t]) := by
  obtain ⟨logits, c', ok, wf, stocked, lBatch, -, batch, layers, qcfg, -, -, run⟩ := forward_spec (m := m) x holds.wf holds.layers
    (rows.trans holds.batch.symm) (by rw [cap]; exact Nat.one_pos)
  have each : ∀ b (inside : b < contexts.length) (inside' : b < fed.length),
      m.solo q (contexts[b] ++ [fed[b]]) = (c'.row b, some (logits.get b 0)) := by
    intro b inside inside'
    have fedRow := run b (by rw [holds.batch]; exact inside) (m.solo q contexts[b]).2
    have pad : (c.row b).pad = 0 := by rw [holds.row inside, solo_row]
    have column : window (x.get b) 0 1 = [fed[b]] := by
      simp [window, columns b, inside']
    rw [cap, column, holds.qcfg, pad, if_pos Nat.one_pos, holds.row inside, Prod.mk.eta, solo_append] at fedRow
    exact fedRow
  refine ⟨logits, c', ok, lBatch.trans holds.batch, ⟨wf, stocked, layers.trans holds.layers, qcfg.trans holds.qcfg, ?_⟩, ?_⟩
  · apply BatchKVCache.rows_ext
    · simp [batch, holds.batch, count]
    · intro b inside
      simp only [List.length_map, List.length_zipWith, Nat.lt_min] at inside
      simp only [List.getElem_map, List.getElem_zipWith]
      rw [each b inside.1 inside.2]
  · intro b context t at_b at_b'
    obtain ⟨inside, rfl⟩ := List.getElem?_eq_some_iff.mp at_b
    obtain ⟨inside', rfl⟩ := List.getElem?_eq_some_iff.mp at_b'
    rw [logitsAfter, each b inside inside']
    rfl

end DecoderModel.Holds

/-! ### A greedy request -/

/-- A text request that is sampled greedily: no penalties, no grammar, at least one token. -/
structure Request.Greedy (req : Request) : Prop where
  embedding : req.embedding = false
  multimodal : req.isMultimodal = false
  temperature : req.params.temperature ≤ 0
  penalties : req.params.hasPenalties = false
  grammar : req.jsonSchema = ""
  limit : 1 ≤ req.maxTokens

/-- The engine serves the text decoder `m`, and its sampler is greedy at temperature 0. -/
structure WorkerEnv.Serves [Slot V] (env : WorkerEnv V L K G I) (m : DecoderModel V H Q L) (greedy : L → Int)
    (record : L → Int → TokenLogprob Rat) : Prop where
  model : env.model = m.loaded
  step : 0 < env.kStep
  text : env.visionModel = false
  samples : (SamplerCalls.mk greedy env.sample env.key).Greedy record
  prompts : ∀ r, (env.request r).isMultimodal = false → (env.request r).promptIds ≠ []

section
variable [Slot V] (env : WorkerEnv V L K G I) (m : DecoderModel V H Q L) (greedy : L → Int)
  (record : L → Int → TokenLogprob Rat) (r : Nat)

/-- What greedy generation gives for request `r`. -/
def greedyAnswer : List Int × Bool :=
  Generation.generate (m.greedyNext env.kvQuant greedy) (env.request r).eosIds.contains (env.request r).maxTokens.toNat
    (env.request r).promptIds

/-- `ts` were emitted for request `r` and it is not done. -/
def Midway (ts : List Int) : Prop :=
  Generation.Underway (m.greedyNext env.kvQuant greedy) (env.request r).eosIds.contains (env.request r).maxTokens.toNat
    (env.request r).promptIds ts

/-- How a greedy request ends: with the whole answer and its reason, or cancelled somewhere on the way. -/
def Ended (cancelled : List Nat) (r : Nat) (o : Output G) : Prop :=
  greedyAnswer env m greedy r = (o.tokens, true) ∧ o.finishReason = "stop" ∨
    greedyAnswer env m greedy r = (o.tokens, false) ∧ o.finishReason = "length" ∨
    o.tokens <+: (greedyAnswer env m greedy r).1 ∧ o.finishReason = "cancel" ∧ r ∈ cancelled

/-- What holds of a greedy request wherever it is. -/
structure Steady (o : Output G) : Prop where
  grammar : o.grammar = none
  logprobs : o.logprobs = wantedRecords m env.kvQuant record (env.request r).params.topLogprobs (env.request r).promptIds o.tokens
  opened : o.closes = [] → o.logprobsClosed = false

/-- A greedy request in a row that was fed `context`: unfinished, with the token to be fed next emitted last, or ended. -/
structure Live (cancelled : List Nat) (r : Nat) (context : List Int) (row : Row K) (o : Output G) : Prop where
  steady : Steady env m record r o
  closes : o.closes = []
  state : row.finished = false ∧ context ++ [row.feed] = (env.request r).promptIds ++ o.tokens ∧
      Midway env m greedy r o.tokens ∧ row.produced = o.tokens.length ∧ o.tokens.length < (env.request r).maxTokens.toNat ∨
    row.finished = true ∧ Ended env m greedy cancelled r o

end

section
variable [Slot V] {env : WorkerEnv V L K G I} {m : DecoderModel V H Q L} {greedy : L → Int}
  {record : L → Int → TokenLogprob Rat} {cancelled : List Nat} {r : Nat} {o before after : Output G}

/-- The token that greedy generation chooses next is consumed. -/
theorem consume_greedy (steady : Steady env m record r o) (closes : o.closes = [])
    (underway : Midway env m greedy r o.tokens) (room : o.tokens.length < (env.request r).maxTokens.toNat) (s : Sampled)
    (id : s.id = m.greedyNext env.kvQuant greedy ((env.request r).promptIds ++ o.tokens))
    (logprob : s.logprob = if 0 ≤ (env.request r).params.topLogprobs then
      some (record (m.logitsAfter env.kvQuant ((env.request r).promptIds ++ o.tokens)) (env.request r).params.topLogprobs)
      else none) :
    let out := Output.consume (env.request r) o o.tokens.length s
    Steady env m record r out.1 ∧ out.1.closes = [] ∧ out.2.1 = out.1.tokens.length ∧
      (out.2.2 = false ∧ out.1.tokens = o.tokens ++ [s.id] ∧ Midway env m greedy r out.1.tokens ∧
        out.1.tokens.length < (env.request r).maxTokens.toNat ∨ out.2.2 = true ∧ Ended env m greedy cancelled r out.1) := by
  have pushed : o.pushToken s.id = { o with tokens := o.tokens ++ [s.id] } := by
    rw [Output.pushToken, closes]
    rfl
  by_cases stops : (env.request r).eosIds.contains s.id = true
  · have same : Output.consume (env.request r) o o.tokens.length s =
        ({ o with finishReason := "stop" }, o.tokens.length, true) := if_pos stops
    rw [same]
    rw [id] at stops
    exact ⟨⟨steady.grammar, steady.logprobs, steady.opened⟩, closes, rfl, .inr ⟨rfl, .inl ⟨underway.stopped room stops, rfl⟩⟩⟩
  · -- the token is emitted, and its record when one is wanted
    let emitted : Output G := { o with tokens := o.tokens ++ [s.id], logprobs := o.logprobs ++ s.logprob.toList }
    have going : (env.request r).eosIds.contains (m.greedyNext env.kvQuant greedy ((env.request r).promptIds ++ o.tokens)) =
        false := by rw [← id]; exact Bool.eq_false_iff.mpr stops
    have more : Midway env m greedy r (o.tokens ++ [s.id]) := by
      rw [id]
      exact underway.emit room going
    have count : emitted.tokens.length = o.tokens.length + 1 := by simp [emitted]
    have kept : Steady env m record r emitted := by
      refine ⟨steady.grammar, ?_, steady.opened⟩
      show o.logprobs ++ s.logprob.toList = _
      rw [steady.logprobs, logprob]
      exact (wantedRecords_append _ _ _ _).symm
    have same : Output.consume (env.request r) o o.tokens.length s =
        if (env.request r).maxTokens ≤ (o.tokens.length + 1 : Nat) then
          ({ emitted with finishReason := "length" }, o.tokens.length + 1, true)
        else (emitted, o.tokens.length + 1, false) := by
      rw [Output.consume, if_neg stops, pushed]
      cases wanted : s.logprob with
      | none => simp [emitted, wanted]
      | some lp => simp [emitted, wanted, Output.pushLogprob, steady.opened closes]
    rw [same]
    split
    next limit =>
      have full : greedyAnswer env m greedy r = (emitted.tokens, false) := more.full (by rw [count]; omega)
      exact ⟨⟨kept.grammar, kept.logprobs, kept.opened⟩, closes, count.symm, .inr ⟨rfl, .inr (.inl ⟨full, rfl⟩)⟩⟩
    next below => exact ⟨kept, closes, count.symm, .inl ⟨rfl, rfl, more, by rw [count]; omega⟩⟩

open Worker (Untouched Registered Decoded)

variable {flags : List Nat} {row row' : Row K} {l : L} {context : List Int}

theorem sampleRow_greedy (serves : env.Serves m greedy record) (plain : (env.request r).Greedy) (grammar : o.grammar = none) :
    Worker.sampleRow env (env.request r) o row l = .ok ⟨greedy l, if 0 ≤ (env.request r).params.topLogprobs then
      some (record l (env.request r).params.topLogprobs) else none⟩ := by
  have sampled := serves.samples l (env.request r).params (env.split row.key).2 plain.temperature plain.penalties
  simp only at sampled
  simp only [Worker.sampleRow, grammar, plain.penalties, Bool.not_false, Bool.true_or, if_true, sampled, ok_bind]
  rfl

/-- Appending a token to the history or the grammar leaves a greedy request as it is. -/
theorem Steady.advance (steady : Steady env m record r o) (id : Int) : Worker.advanceGrammar env o id = o := by
  have grammar := steady.grammar
  cases o
  simp only at grammar
  rw [Worker.advanceGrammar, grammar]
  rfl

theorem registered_live (serves : env.Serves m greedy record) (flagged : flags ⊆ cancelled) (plain : (env.request r).Greedy) (untouched : Untouched before)
    (steady : Steady env m record r before) (read : l = m.logitsAfter env.kvQuant (env.request r).promptIds)
    (registered : Registered env flags before r l row after) :
    Live env m greedy record cancelled r (env.request r).promptIds row after := by
  subst read
  obtain ⟨s, sampled, ran⟩ := registered
  have compiled : Worker.compiled env r before = before := by
    rw [Worker.compiled, if_neg]
    simp [plain.grammar]
  rw [compiled, sampleRow_greedy serves plain steady.grammar] at sampled
  obtain rfl := Except.ok.inj sampled
  have start := untouched.tokens
  have limit := plain.limit
  rw [compiled, Worker.firstToken, steady.advance] at ran
  dsimp only at ran
  split at ran
  next flag =>
    obtain ⟨rfl, rfl⟩ := Prod.mk.inj ran
    have cancel : r ∈ cancelled := flagged (by simpa [Worker.keyUsed, Worker.freshRow] using flag)
    refine ⟨⟨steady.grammar, steady.logprobs, steady.opened⟩, untouched.closes, .inr ⟨rfl, .inr (.inr ⟨?_, rfl, cancel⟩)⟩⟩
    rw [start]
    exact List.nil_prefix
  · have underway : Midway env m greedy r before.tokens := by
      rw [start]
      exact .start _ _ _ _
    obtain ⟨kept, closes, produced, state⟩ := consume_greedy steady untouched.closes underway
      (by rw [start, List.length_nil]; omega) ⟨greedy (m.logitsAfter env.kvQuant (env.request r).promptIds), _⟩
      (by rw [start, List.append_nil]; rfl) (by rw [start, List.append_nil])
    rw [start, List.length_nil] at kept closes produced state
    obtain ⟨rfl, rfl⟩ := Prod.mk.inj ran
    refine ⟨kept, closes, ?_⟩
    rcases state with ⟨going, tokens, more, room⟩ | ⟨done, ended⟩
    · refine .inl ⟨?_, ?_, more, produced, room⟩
      · exact (if_neg (Bool.eq_false_iff.mp going)).trans rfl
      · exact congrArg ((env.request r).promptIds ++ ·) tokens.symm
    · exact .inr ⟨if_pos done, ended⟩

theorem decoded_live (serves : env.Serves m greedy record) (flagged : flags ⊆ cancelled) (plain : (env.request r).Greedy)
    (live : Live env m greedy record cancelled r context row before) (own : row.req = r)
    (read : l = m.logitsAfter env.kvQuant (context ++ [row.feed])) (decoded : Decoded env flags before row l row' after) :
    Live env m greedy record cancelled r (context ++ [row.feed]) row' after := by
  subst read own
  obtain ⟨s, sampled, ran⟩ := decoded
  rw [sampleRow_greedy serves plain live.steady.grammar] at sampled
  obtain rfl := Except.ok.inj sampled
  rw [Worker.nextToken, live.steady.advance] at ran
  rcases live.state with ⟨unfinished, fed, underway, produced, room⟩ | ⟨finished, ended⟩
  · rw [if_neg (by simp [Worker.keyUsed, unfinished])] at ran
    split at ran
    next flag =>
      obtain ⟨rfl, rfl⟩ := Prod.mk.inj ran
      have cancel : row.req ∈ cancelled := flagged (by simpa [Worker.keyUsed] using flag)
      exact ⟨⟨live.steady.grammar, live.steady.logprobs, live.steady.opened⟩, live.closes,
        .inr ⟨rfl, .inr (.inr ⟨underway.isPrefix, rfl, cancel⟩)⟩⟩
    · obtain ⟨kept, closes, produced', state⟩ := consume_greedy live.steady live.closes underway room
        ⟨greedy (m.logitsAfter env.kvQuant (context ++ [row.feed])), _⟩ (by rw [← fed]; rfl) (by rw [← fed])
      rw [← produced] at kept closes produced' state
      obtain ⟨rfl, rfl⟩ := Prod.mk.inj ran
      refine ⟨kept, closes, ?_⟩
      rcases state with ⟨going, tokens, more, room'⟩ | ⟨done, ended⟩
      · refine .inl ⟨?_, ?_, more, produced', room'⟩
        · exact (if_neg (Bool.eq_false_iff.mp going)).trans unfinished
        · have grown := congrArg (· ++ [greedy (m.logitsAfter env.kvQuant (context ++ [row.feed]))]) fed
          rw [List.append_assoc _ before.tokens] at grown
          exact grown.trans (congrArg ((env.request row.req).promptIds ++ ·) tokens.symm)
      · exact .inr ⟨if_pos done, ended⟩
  · rw [if_pos (by simp [Worker.keyUsed, finished])] at ran
    obtain ⟨rfl, rfl⟩ := Prod.mk.inj ran
    exact ⟨live.steady, live.closes, .inr ⟨finished, ended⟩⟩

/-- A history plays no part in what a greedy row is to do. -/
theorem Live.forget (live : Live env m greedy record cancelled r context row o) :
    Live env m greedy record cancelled r context { row with history := [] } o :=
  ⟨live.steady, live.closes, live.state⟩

end

end Mlxforge
