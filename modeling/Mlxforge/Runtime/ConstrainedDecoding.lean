import Mlxforge.Runtime.GrammarMask

/-!
Constrained decoding over whole runs of the engine: the text of a constrained request stays a prefix of its grammar, a
token can always be sampled, and the request stops on a complete document.
-/

namespace Mlxforge

open JsonGrammar (NoDeadEnd accepts_append advance_append)
open Transition (Reachable Free)
open Worker (RowLaw Registered Decoded Untouched Botched live freshRow compiled keyUsed)

variable {vocab : Nat} {V Key I K : Type} [AddZeroClass K] {decode : List Int → Bytes}
  {env : WorkerEnv V (Fin vocab → WithBot K) Key JsonGrammar I} {g : JsonGrammar} {tokens : List Int}

/-- The tokens' texts come one after the other. -/
def TokenByToken (decode : List Int → Bytes) : Prop := ∀ ids, decode ids = ids.flatMap fun id => decode [id]

/-- Every sampled token has a finite logit in the row it was sampled from. -/
def SamplesFinite (env : WorkerEnv V (Fin vocab → WithBot K) Key JsonGrammar I) : Prop :=
  ∀ {row params key history id lp}, env.sample row params key history = .ok (id, lp) →
    ∃ i : Fin vocab, id = (i : Int) ∧ row i ≠ ⊥

def WorkerEnv.grammarOf (env : WorkerEnv V (Fin vocab → WithBot K) Key JsonGrammar I) (r : Nat) : JsonGrammar :=
  env.fromSchemaString (env.request r).jsonSchema

/-- A request with a schema whose grammar has no dead end, over a vocabulary with every single byte outside the end
tokens. -/
structure Constrained (env : WorkerEnv V (Fin vocab → WithBot K) Key JsonGrammar I) (decode : List Int → Bytes) (r : Nat) :
    Prop where
  tok : env.tok = true
  schema : (env.request r).jsonSchema ≠ ""
  alive : NoDeadEnd (env.grammarOf r)
  singles : ∀ b : UInt8, ∃ id : Fin vocab, tokenBytes decode id = [b] ∧ (id : Int) ∉ (env.request r).eosIds
  ends : (env.request r).eosIds ≠ []
  inside : ∀ e ∈ (env.request r).eosIds, 0 ≤ e ∧ e < vocab

/-- The text is accepted, and was not complete before its last token. -/
structure Follows (g : JsonGrammar) (decode : List Int → Bytes) (tokens : List Int) : Prop where
  accepted : g.accepts (decode tokens) = true
  going : ∀ t, t <+: tokens → t ≠ tokens → (g.advance (decode t)).complete = false

/-- What a row says of its constrained request. -/
structure RowFollows (g : JsonGrammar) (decode : List Int → Bytes) (o : Output JsonGrammar) (finished : Bool) : Prop where
  opened : o.closes = []
  follows : Follows g decode o.tokens
  current : finished = false → o.grammar = some (g.advance (decode o.tokens)) ∧ o.finishReason = ""
  stop : o.finishReason = "stop" → (g.advance (decode o.tokens)).complete = true

theorem decode_nil (byToken : TokenByToken decode) : decode [] = [] := byToken []

theorem decode_concat (byToken : TokenByToken decode) (tokens : List Int) (id : Int) :
    decode (tokens ++ [id]) = decode tokens ++ decode [id] := by
  rw [byToken (tokens ++ [id]), List.flatMap_append, ← byToken tokens, List.flatMap_singleton]

theorem follows_nil (byToken : TokenByToken decode) (g : JsonGrammar) : Follows g decode [] := by
  refine ⟨by rw [decode_nil byToken]; rfl, fun t front proper => ?_⟩
  exact absurd (List.prefix_nil.mp front) proper

theorem Follows.front (byToken : TokenByToken decode) (follows : Follows g decode tokens) {t : List Int}
    (front : t <+: tokens) : g.accepts (decode t) = true := by
  obtain ⟨rest, rfl⟩ := front
  have accepted := follows.accepted
  rw [byToken, List.flatMap_append, ← byToken, accepts_append] at accepted
  exact Bool.and_elim_left accepted

/-! ### One token -/

section token
variable {r : Nat}

omit [AddZeroClass K] in
theorem Constrained.exists_allowed (constrained : Constrained env decode r) {s : Bytes}
    (accepted : (env.grammarOf r).accepts s = true) :
    ∃ id : Fin vocab, allowToken (env.request r).eosIds ((env.grammarOf r).advance s) id (tokenBytes decode id) = true := by
  obtain ⟨e, eos⟩ := List.exists_mem_of_ne_nil _ constrained.ends
  obtain ⟨low, high⟩ := constrained.inside e eos
  refine Mlxforge.exists_allowed constrained.alive constrained.singles ⟨⟨e.toNat, by omega⟩, ?_⟩ accepted
  rwa [show ((⟨e.toNat, _⟩ : Fin vocab) : Int) = e from Int.toNat_of_nonneg low]

/-- A token that the mask leaves ends a complete document, or goes on with one that is not. -/
theorem Follows.sampled (byToken : TokenByToken decode) (follows : Follows g decode tokens) {eosIds : List Int}
    {id : Fin vocab} (left : allowToken eosIds (g.advance (decode tokens)) id (tokenBytes decode id) = true) :
    ((id : Int) ∈ eosIds ∧ (g.advance (decode tokens)).complete = true) ∨
      ((id : Int) ∉ eosIds ∧ Follows g decode (tokens ++ [(id : Int)]) ∧
        advanceToken (tokenBytes decode : Fin vocab → Bytes) id (g.advance (decode tokens)) =
          g.advance (decode (tokens ++ [(id : Int)]))) := by
  by_cases eos : (id : Int) ∈ eosIds
  · exact .inl ⟨eos, (allowToken_eos eos).symm.trans left⟩
  · obtain ⟨open_, _, goesOn⟩ := (allowToken_ordinary eos).mp left
    refine .inr ⟨eos, ⟨?_, ?_⟩, ?_⟩
    · rw [decode_concat byToken, accepts_append, follows.accepted, Bool.true_and]
      exact goesOn
    · intro t front proper
      rcases List.prefix_concat_iff.mp front with whole | front
      · exact absurd whole proper
      · by_cases same : t = tokens
        · rw [same]
          exact open_
        · exact follows.going t front same
    · have inside : 0 ≤ (id : Int) ∧ ((id : Nat) : Int).toNat < vocab := ⟨Int.natCast_nonneg _, id.isLt⟩
      rw [advanceToken, dif_pos inside, decode_concat byToken, advance_append]
      rfl

/-- The sampler is given a row in which only allowed tokens are finite. -/
theorem sampleRow_allowed (finite : SamplesFinite env) (constrained : Constrained env decode r) {o : Output JsonGrammar}
    {row : Row Key} {l : Fin vocab → WithBot K} {s : Sampled} (follows : Follows (env.grammarOf r) decode o.tokens)
    (current : o.grammar = some ((env.grammarOf r).advance (decode o.tokens)))
    (ok : Worker.sampleRow (env.constrained decode) (env.request r) o row l = .ok s) :
    ∃ id : Fin vocab, s.id = (id : Int) ∧ allowToken (env.request r).eosIds
      ((env.grammarOf r).advance (decode o.tokens)) id (tokenBytes decode id) = true := by
  unfold Worker.sampleRow at ok
  obtain ⟨⟨id, lp⟩, drawn, ok⟩ := bind_ok ok
  obtain rfl := pure_ok ok
  simp only [current] at drawn
  have tok : (env.constrained decode).tok = true := constrained.tok
  rw [if_pos tok] at drawn
  obtain ⟨i, same, left⟩ := finite drawn
  refine ⟨i, same, grammarMask_left (K := K) (constrained.exists_allowed follows.accepted) fun masked => left ?_⟩
  change l i + Worker.grammarMask (tokenBytes decode) (env.request r).eosIds _ i = ⊥
  rw [masked, WithBot.add_bot]

variable (env) in
/-- A sampled token that is emitted, or ends the request. -/
theorem emitted_follows (byToken : TokenByToken decode) {o : Output JsonGrammar} {s : Sampled} {id : Fin vocab}
    (produced : Nat) (opened : o.closes = []) (follows : Follows g decode o.tokens)
    (current : o.grammar = some (g.advance (decode o.tokens))) (going : o.finishReason = "") (same : s.id = (id : Int))
    (left : allowToken (env.request r).eosIds (g.advance (decode o.tokens)) id (tokenBytes decode id) = true) :
    RowFollows g decode
      (Output.consume (env.request r) (Worker.advanceGrammar (env.constrained decode) o s.id) produced s).1
      (Output.consume (env.request r) (Worker.advanceGrammar (env.constrained decode) o s.id) produced s).2.2 := by
  have advanced : (Worker.advanceGrammar (env.constrained decode) o s.id).grammar =
      some (advanceToken (tokenBytes decode : Fin vocab → Bytes) s.id (g.advance (decode o.tokens))) := by
    rw [Worker.advanceGrammar, current]
    rfl
  have text : (Worker.advanceGrammar (env.constrained decode) o s.id).tokens = o.tokens := rfl
  have reason : (Worker.advanceGrammar (env.constrained decode) o s.id).finishReason = "" := going
  have opened' : (Worker.advanceGrammar (env.constrained decode) o s.id).closes = [] := opened
  have spec := Output.consume_spec (env.request r) produced s opened'
  generalize Worker.advanceGrammar (env.constrained decode) o s.id = o₁ at *
  generalize Output.consume (env.request r) o₁ produced s = c at *
  obtain ⟨o', n', done⟩ := c
  rw [same] at spec advanced
  have turn := follows.sampled byToken left
  obtain ⟨⟨_, grammar, closes⟩, ⟨eos, tokens, ended, result⟩ | ⟨ordinary, _, tokens, ended, result⟩ |
    ⟨ordinary, _, tokens, ended, result⟩⟩ := spec
  all_goals
    obtain ⟨rfl, rfl⟩ := Prod.mk.inj result
    dsimp only at *
  · have complete := (turn.resolve_right fun other => other.1 eos).2
    rw [text] at tokens
    exact ⟨closes, tokens ▸ follows, fun going => Bool.noConfusion going, fun _ => tokens ▸ complete⟩
  · obtain ⟨_, longer, _⟩ := turn.resolve_left fun other => ordinary other.1
    rw [text] at tokens
    exact ⟨closes, tokens ▸ longer, fun going => Bool.noConfusion going,
      fun stop => absurd (ended.symm.trans stop) (by decide)⟩
  · obtain ⟨_, longer, next⟩ := turn.resolve_left fun other => ordinary other.1
    rw [text] at tokens
    refine ⟨closes, tokens ▸ longer, fun _ => ⟨?_, ended.trans reason⟩, fun stop => ?_⟩
    · rw [grammar, advanced, next, tokens]
    · exact absurd ((ended.trans reason).symm.trans stop) (by decide)

end token

/-! ### Rows -/

/-- The law of constrained rows: the history of a row does not matter to it. -/
def ConstrainedRow (env : WorkerEnv V (Fin vocab → WithBot K) Key JsonGrammar I) (decode : List Int → Bytes)
    (o : Output JsonGrammar) (row : Row Key) : Prop :=
  Constrained env decode row.req → RowFollows (env.grammarOf row.req) decode o row.finished

/-- What a constrained request is left with. -/
def ConstrainedOutput (env : WorkerEnv V (Fin vocab → WithBot K) Key JsonGrammar I) (decode : List Int → Bytes) (r : Nat)
    (o : Output JsonGrammar) : Prop :=
  Constrained env decode r → Follows (env.grammarOf r) decode o.tokens ∧
    (o.finishReason = "stop" → ((env.grammarOf r).advance (decode o.tokens)).complete = true)

theorem going_of_unfinished {done finished : Bool} (unfinished : (if done = true then true else finished) = false) :
    done = false := by
  cases done with
  | false => rfl
  | true => cases unfinished

section law
variable {flags : List Nat} {before after : Output JsonGrammar} {r : Nat} {l : Fin vocab → WithBot K} {row row' : Row Key}

theorem first_follows (byToken : TokenByToken decode) (finite : SamplesFinite env) (untouched : Untouched before)
    (registered : Registered (env.constrained decode) flags before r l row after) : ConstrainedRow env decode after row := by
  obtain ⟨s, sampled, ran⟩ := registered
  have named : row.req = r := (Registered.frame ⟨s, sampled, ran⟩).1
  intro constrained
  rw [named] at constrained ⊢
  have given : compiled (env.constrained decode) r before = { before with grammar := some (env.grammarOf r) } := by
    have both : ((env.constrained decode).tok && ((env.constrained decode).request r).jsonSchema != "") = true := by
      rw [Bool.and_eq_true]
      exact ⟨constrained.tok, bne_iff_ne.mpr constrained.schema⟩
    unfold compiled
    rw [if_pos both]
    rfl
  have start : decode before.tokens = [] := by rw [untouched.tokens, decode_nil byToken]
  have follows : Follows (env.grammarOf r) decode before.tokens := by
    rw [untouched.tokens]
    exact follows_nil byToken _
  have current : some (env.grammarOf r) = some ((env.grammarOf r).advance (decode before.tokens)) := by
    rw [start]
    rfl
  rw [given] at sampled ran
  obtain ⟨id, same, left⟩ := sampleRow_allowed (o := { before with grammar := some (env.grammarOf r) }) finite constrained
    follows current sampled
  have emitted := emitted_follows env (o := { before with grammar := some (env.grammarOf r) }) byToken 0
    untouched.closes follows current untouched.finishReason same left
  simp only [Worker.firstToken] at ran
  split at ran
  · obtain ⟨rfl, rfl⟩ := Prod.mk.inj ran
    exact ⟨untouched.closes, follows, fun going => Bool.noConfusion going,
      fun stop => absurd (show "cancel" = "stop" from stop) (by decide)⟩
  · obtain ⟨rfl, rfl⟩ := Prod.mk.inj ran
    exact ⟨emitted.opened, emitted.follows, fun unfinished => emitted.current (going_of_unfinished unfinished),
      emitted.stop⟩

theorem next_follows (byToken : TokenByToken decode) (finite : SamplesFinite env)
    (holds : ConstrainedRow env decode before row)
    (decoded : Decoded (env.constrained decode) flags before row l row' after) : ConstrainedRow env decode after row' := by
  obtain ⟨s, sampled, ran⟩ := decoded
  intro constrained
  simp only [Worker.nextToken] at ran
  split at ran
  next done =>
    obtain ⟨rfl, rfl⟩ := Prod.mk.inj ran
    exact holds constrained
  next going =>
    have unfinished : row.finished = false := by simpa [keyUsed] using going
    split at ran
    · obtain ⟨rfl, rfl⟩ := Prod.mk.inj ran
      have row_ := holds constrained
      exact ⟨row_.opened, row_.follows, fun going => Bool.noConfusion going,
        fun stop => absurd (show "cancel" = "stop" from stop) (by decide)⟩
    · obtain ⟨rfl, rfl⟩ := Prod.mk.inj ran
      have row_ := holds constrained
      obtain ⟨current, reason⟩ := row_.current unfinished
      obtain ⟨id, same, left⟩ := sampleRow_allowed finite constrained row_.follows current sampled
      have emitted := emitted_follows env byToken row.produced row_.opened row_.follows current reason same left
      exact ⟨emitted.opened, emitted.follows, fun unfinished => emitted.current (going_of_unfinished unfinished),
        emitted.stop⟩

theorem constrained_law (byToken : TokenByToken decode) (finite : SamplesFinite env) :
    RowLaw (env.constrained decode) (ConstrainedRow env decode) (ConstrainedOutput env decode) where
  first untouched registered := first_follows byToken finite untouched registered
  next holds decoded := next_follows byToken finite holds decoded
  evicted holds _ _ constrained := ⟨(holds constrained).follows, (holds constrained).stop⟩
  quit := by
    intro r o tokens _ reason _
    refine ⟨by rw [Output.close, tokens]; exact follows_nil byToken _, fun stop => ?_⟩
    rcases reason with error | embed
    · exact absurd (error.symm.trans stop) (by decide)
    · exact absurd (embed.symm.trans stop) (by decide)

end law

/-! ### Whole runs -/

namespace EngineState

variable [Slot V] {s : EngineState V Key JsonGrammar} {maxWaiting : Int} {r : Nat}

omit [Slot V] [AddZeroClass K] in
theorem constrained_careful (s : EngineState V Key JsonGrammar) (a : EngineAction) :
    s.Careful (ConstrainedRow env decode) a := by
  cases a with
  | worker flags => exact fun _ => .inl fun holds => holds
  | _ => trivial

/-- What is known of a constrained request in every state: its output, and its row's grammar while it is decoded. -/
theorem constrained_run (byToken : TokenByToken decode) (finite : SamplesFinite env)
    (reached : Reachable (step (env.constrained decode)) Free (start (env.constrained decode) maxWaiting) s)
    (constrained : Constrained env decode r) (sound : ¬s.worker.Botched r) :
    (Follows (env.grammarOf r) decode (s.worker.out r).tokens ∧ ((s.worker.out r).finishReason = "stop" →
      ((env.grammarOf r).advance (decode (s.worker.out r).tokens)).complete = true)) ∧
    ∀ b row, s.worker.row? b = some row → row.req = r → row.finished = false →
      (s.worker.out r).grammar = some ((env.grammarOf r).advance (decode (s.worker.out r).tokens)) := by
  have inv : Inv (ConstrainedRow env decode) (ConstrainedOutput env decode) s :=
    inv_of_reachable (constrained_law byToken finite) (fun s a _ => constrained_careful s a) reached
  obtain ⟨rows, aligned, old⟩ := inv.tracked.rows
  have untouched : Untouched (s.worker.out r) → Follows (env.grammarOf r) decode (s.worker.out r).tokens ∧
      ((s.worker.out r).finishReason = "stop" →
        ((env.grammarOf r).advance (decode (s.worker.out r).tokens)).complete = true) := by
    intro fresh
    rw [fresh.tokens, fresh.finishReason]
    exact ⟨follows_nil byToken _, fun stop => absurd stop (by decide)⟩
  constructor
  · by_cases out : r ∈ s.sched.waiting ∨ r ∉ s.accepted
    · exact untouched (inv.untaken r out)
    · rw [not_or, not_not] at out
      by_cases alive : r ∈ live s.hand s.worker
      · rcases List.mem_append.mp alive with early | among
        · exact untouched (inv.tracked.fresh r early)
        · rw [aligned.reqs] at among
          obtain ⟨row, member, rfl⟩ := List.mem_map.mp among
          have holds := (old row member).2 sound constrained
          exact ⟨holds.follows, holds.stop⟩
      · exact (inv.settled r out.2 out.1 alive).2 sound constrained
  · intro b row found named unfinished
    rw [aligned.row?] at found
    subst named
    exact (((old row (List.mem_of_getElem? found)).2 sound constrained).current unfinished).1

/-- In every state the emitted text is accepted, nothing was emitted after a complete document, and a stop names one; the
row in progress has the grammar's state after the text. At every step so far the mask left a token, and an end token just
where the document was complete. -/
theorem constrained_decoding (byToken : TokenByToken decode) (finite : SamplesFinite env)
    (reached : Reachable (step (env.constrained decode)) Free (start (env.constrained decode) maxWaiting) s)
    (constrained : Constrained env decode r) (sound : ¬s.worker.Botched r) :
    let g := env.grammarOf r
    let o := s.worker.out r
    let eosIds := (env.request r).eosIds
    g.accepts (decode o.tokens) = true ∧
      (∀ t, t <+: o.tokens → (g.advance (decode t)).complete = true → t = o.tokens) ∧
      (o.finishReason = "stop" → (g.advance (decode o.tokens)).complete = true) ∧
      (∀ b row, s.worker.row? b = some row → row.req = r → row.finished = false →
        o.grammar = some (g.advance (decode o.tokens))) ∧
      ∀ t, t <+: o.tokens →
        allowed (tokenBytes decode : Fin vocab → Bytes) eosIds (g.advance (decode t)) ≠ 0 ∧
          ∀ id : Fin vocab, Worker.grammarMask (K := K) (tokenBytes decode) eosIds (g.advance (decode t)) id ≠ ⊥ →
            ((id : Int) ∈ eosIds ↔ (g.advance (decode t)).complete = true) := by
  intro g o eosIds
  obtain ⟨⟨follows, stop⟩, current⟩ := constrained_run byToken finite reached constrained sound
  refine ⟨follows.accepted, fun t front complete => ?_, stop, current, fun t front => ?_⟩
  · by_contra proper
    exact absurd (follows.going t front proper) (by rw [complete]; exact Bool.noConfusion)
  · have some := constrained.exists_allowed (follows.front byToken front)
    obtain ⟨id, left⟩ := some
    refine ⟨(List.countP_pos_iff.mpr ⟨id, List.mem_finRange id, left⟩).ne', fun id finite => ?_⟩
    have left := grammarMask_left ⟨_, left⟩ finite
    constructor
    · intro eos
      exact (allowToken_eos eos).symm.trans left
    · intro complete
      by_contra ordinary
      exact absurd ((allowToken_ordinary ordinary).mp left).1 (by rw [complete]; exact Bool.noConfusion)

/-! ### A vocabulary of bytes -/

/-- The ids below 256 are the bytes; the others are special tokens. -/
def byteText (ids : List Int) : Bytes :=
  ids.flatMap fun id => if 0 ≤ id ∧ id < 256 then [UInt8.ofNat id.toNat] else []

/-- One request for free JSON; its tokens are drawn from `script` as long as they are not masked. -/
def scripted (vocab : Nat) (eosIds : List Int) (script : Nat → Fin vocab) :
    WorkerEnv Int (Fin vocab → WithBot Int) Nat JsonGrammar Unit where
  request := fun _ => { promptIds := [1], eosIds, jsonSchema := "json" }
  model :=
    { nLayers := 1
      forward := fun tokens c => .ok (⟨tokens.batch, tokens.cap, fun _ _ _ => 0⟩, c)
      zeroLogits := fun _ => 0
      forward_batch := by
        intro tokens c logits c' ok
        obtain ⟨_, rfl⟩ := Prod.mk.inj (Except.ok.inj ok)
        rfl }
  nbytes := fun _ => 0
  key := fun _ => 0
  split := fun k => (k + 1, k)
  sample := fun row _ k _ => if row (script k) ≠ ⊥ then .ok (script k, ⟨script k, 0, []⟩) else .error .outOfBounds
  fromSchemaString := fun _ => JsonGrammar.anyValue.setCompact true
  grammarMask := fun _ _ row => row
  grammarAdvance := fun _ g => g
  embedPooled := fun _ _ _ => .ok []
  decodeImage := fun _ => .ok ()
  renderMultimodalPrompt := fun _ _ => .ok []
  prefillMultimodal := fun _ _ => .error .multimodal
  prefillMultimodal_batch := by nofun
  torn := fun cache _ => cache

theorem byteText_tokens : TokenByToken byteText := by
  intro ids
  unfold byteText
  exact List.flatMap_congr fun id _ => by rw [List.flatMap_singleton]

theorem scripted_finite (vocab : Nat) (eosIds : List Int) (script : Nat → Fin vocab) :
    SamplesFinite (scripted vocab eosIds script) := by
  intro row params key history id lp drawn
  simp only [scripted] at drawn
  split at drawn
  next finite =>
    obtain ⟨rfl, _⟩ := Prod.mk.inj (Except.ok.inj drawn)
    exact ⟨script key, rfl, finite⟩
  · cases drawn

theorem byteText_byte (b : UInt8) : byteText [(b.toNat : Int)] = [b] := by
  have inside : (0 : Int) ≤ b.toNat ∧ (b.toNat : Int) < 256 := ⟨Int.natCast_nonneg _, by exact_mod_cast b.toNat_lt⟩
  rw [byteText, List.flatMap_singleton, if_pos inside, Int.toNat_natCast, UInt8.ofNat_toNat]

/-- An object is opened and closed, and then the end token is drawn. -/
def emptyObject : WorkerEnv Int (Fin 257 → WithBot Int) Nat JsonGrammar Unit :=
  scripted 257 [256] fun k => if k = 0 then 0x7B else if k = 1 then 0x7D else 256

theorem emptyObject_constrained : Constrained emptyObject byteText 0 where
  tok := rfl
  schema := by decide
  alive := JsonGrammar.anyValue_noDeadEnd
  singles := by
    intro b
    have small := b.toNat_lt
    refine ⟨⟨b.toNat, by omega⟩, byteText_byte b, ?_⟩
    simp only [emptyObject, scripted, List.mem_singleton]
    omega
  ends := by decide
  inside := by decide

theorem constrained_decoding_emptyObject :
    ∃ s, Reachable (step (emptyObject.constrained byteText)) Free (start (emptyObject.constrained byteText) 0) s ∧
      (s.worker.out 0).tokens = [0x7B, 0x7D] ∧
      ((emptyObject.grammarOf 0).advance (byteText (s.worker.out 0).tokens)).complete = true := by
  have run : ((.submit :: List.replicate 12 (.worker [])).foldlM (step (emptyObject.constrained byteText))
      (start (emptyObject.constrained byteText) 0)).map (fun s => decide ((s.worker.out 0).tokens = [0x7B, 0x7D] ∧
        (s.worker.out 0).finishReason = "stop" ∧ s.worker.errors = [])) = some true := by
    decide +kernel
  obtain ⟨s, ran, ended⟩ := Option.map_eq_some_iff.mp run
  obtain ⟨tokens, stop, errors⟩ := of_decide_eq_true ended
  have reached := Reachable.of_foldlM ran
  have sound : ¬s.worker.Botched 0 := by
    rw [Worker.Botched, errors]
    exact List.not_mem_nil
  exact ⟨s, reached, tokens, (constrained_decoding byteText_tokens (scripted_finite _ _ _) reached emptyObject_constrained
    sound).2.2.1 stop⟩

/-- Every token that can begin a value is an end token, so the mask leaves nothing, the logits stay as they are, and the
request stops with no text at all. -/
def noBeginning : WorkerEnv Int (Fin 256 → WithBot Int) Nat JsonGrammar Unit :=
  scripted 256 ((Bytes.ofAscii "\x7b[\"tfn-0123456789").map fun b => (b.toNat : Int)) fun _ => 0x7B

theorem constrained_decoding_fails :
    ¬∀ (vocab : Nat) (env : WorkerEnv Int (Fin vocab → WithBot Int) Nat JsonGrammar Unit) (decode : List Int → Bytes)
        (s : EngineState Int Nat JsonGrammar) (r : Nat),
      TokenByToken decode → SamplesFinite env →
      Reachable (step (env.constrained decode)) Free (start (env.constrained decode) 0) s →
      env.tok = true → (env.request r).jsonSchema ≠ "" → NoDeadEnd (env.grammarOf r) →
      (∀ b : UInt8, ∃ id : Fin vocab, tokenBytes decode id = [b]) → (env.request r).eosIds ≠ [] →
      (∀ e ∈ (env.request r).eosIds, 0 ≤ e ∧ e < vocab) → ¬s.worker.Botched r →
      (s.worker.out r).finishReason = "stop" →
      ((env.grammarOf r).advance (decode (s.worker.out r).tokens)).complete = true := by
  intro claim
  have run : ((.submit :: List.replicate 4 (.worker [])).foldlM (step (noBeginning.constrained byteText))
      (start (noBeginning.constrained byteText) 0)).map (fun s => decide ((s.worker.out 0).tokens = [] ∧
        (s.worker.out 0).finishReason = "stop" ∧ s.worker.errors = [])) = some true := by
    decide +kernel
  obtain ⟨s, ran, ended⟩ := Option.map_eq_some_iff.mp run
  obtain ⟨tokens, stop, errors⟩ := of_decide_eq_true ended
  have sound : ¬s.worker.Botched 0 := by
    rw [Worker.Botched, errors]
    exact List.not_mem_nil
  have singles : ∀ b : UInt8, ∃ id : Fin 256, tokenBytes byteText id = [b] := fun b =>
    ⟨⟨b.toNat, b.toNat_lt⟩, byteText_byte b⟩
  have complete := claim 256 noBeginning byteText s 0 byteText_tokens (scripted_finite _ _ _) (Reachable.of_foldlM ran)
    rfl (by decide) JsonGrammar.anyValue_noDeadEnd singles (by decide) (by decide +kernel) sound stop
  rw [tokens] at complete
  revert complete
  decide

end EngineState

end Mlxforge
