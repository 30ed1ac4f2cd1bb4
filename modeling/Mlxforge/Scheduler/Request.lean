import Mlxforge.Scheduler.SpscQueue

/-!
A request: the fields its submitter sets, and what the worker writes into it.
-/

namespace Mlxforge

structure SamplingParams where
  temperature : Rat := 1
  topK : Int := 0
  topP : Rat := 1
  minP : Rat := 0
  repetitionPenalty : Rat := 1
  frequencyPenalty : Rat := 0
  presencePenalty : Rat := 0
  seed : UInt64 := 0
  topLogprobs : Int := -1
  deriving DecidableEq

def SamplingParams.hasPenalties (p : SamplingParams) : Bool :=
  p.repetitionPenalty != 1 || p.frequencyPenalty != 0 || p.presencePenalty != 0

structure Request where
  promptIds : List Int := []
  params : SamplingParams := {}
  maxTokens : Int := 64
  eosIds : List Int := []
  jsonSchema : String := ""
  embedding : Bool := false
  pooling : Int := 0
  embeddingNormalize : Bool := true
  mmText : String := ""
  mmImages : List (List UInt8) := []

def Request.isMultimodal (r : Request) : Bool := !r.mmImages.isEmpty

/-- The fields of a request the worker writes. The two queues appear as all that was ever pushed to them; `closes`
lists the calls of `tokens.close()`, each with the finish reason set by then. -/
structure Output (G : Type) where
  promptIds : List Int
  grammar : Option G := none
  embeddingResult : List Rat := []
  tokens : List Int := []
  logprobs : List (TokenLogprob Rat) := []
  logprobsClosed : Bool := false
  finishReason : String := ""
  closes : List String := []

/-- One sampled token; the log-prob only for a request that asked. -/
structure Sampled where
  id : Int
  logprob : Option (TokenLogprob Rat)

namespace Output

variable {G : Type}

/-- `tokens.push`; a closed queue drops the token. -/
def pushToken (o : Output G) (id : Int) : Output G :=
  if o.closes.isEmpty then { o with tokens := o.tokens ++ [id] } else o

def pushLogprob (o : Output G) (lp : TokenLogprob Rat) : Output G :=
  if o.logprobsClosed then o else { o with logprobs := o.logprobs ++ [lp] }

/-- `tokens.close()` and `logprobs.close()`. -/
def close (o : Output G) : Output G := { o with closes := o.closes ++ [o.finishReason], logprobsClosed := true }

/-- `consume`: emit a token, true if the request is now finished. -/
def consume (req : Request) (o : Output G) (produced : Nat) (s : Sampled) : Output G × Nat × Bool :=
  if req.eosIds.contains s.id then ({ o with finishReason := "stop" }, produced, true)
  else
    let o := o.pushToken s.id
    let o := match s.logprob with
      | some lp => o.pushLogprob lp
      | none => o
    if req.maxTokens ≤ (produced + 1 : Nat) then ({ o with finishReason := "length" }, produced + 1, true)
    else (o, produced + 1, false)

variable {o : Output G} {req : Request} {produced : Nat} {s : Sampled}

theorem pushLogprob_frame (o : Output G) (lp : TokenLogprob Rat) :
    (o.pushLogprob lp).tokens = o.tokens ∧ (o.pushLogprob lp).promptIds = o.promptIds ∧
      (o.pushLogprob lp).grammar = o.grammar ∧ (o.pushLogprob lp).closes = o.closes ∧
      (o.pushLogprob lp).finishReason = o.finishReason := by
  unfold pushLogprob
  split <;> exact ⟨rfl, rfl, rfl, rfl, rfl⟩

theorem pushToken_frame (o : Output G) (id : Int) :
    (o.pushToken id).promptIds = o.promptIds ∧ (o.pushToken id).grammar = o.grammar ∧
      (o.pushToken id).closes = o.closes ∧ (o.pushToken id).finishReason = o.finishReason := by
  unfold pushToken
  split <;> exact ⟨rfl, rfl, rfl, rfl⟩

/-- Emitting touches neither the prompt nor the closes, and a finished request has a reason. -/
theorem consume_frame (req : Request) (o : Output G) (produced : Nat) (s : Sampled) :
    (consume req o produced s).1.promptIds = o.promptIds ∧ (consume req o produced s).1.closes = o.closes ∧
      ((consume req o produced s).2.2 = true → (consume req o produced s).1.finishReason ≠ "") := by
  obtain ⟨prompt, _, closes, _⟩ := pushToken_frame o s.id
  unfold consume
  split
  · exact ⟨rfl, rfl, fun _ => by simp⟩
  · cases s.logprob with
    | none =>
      simp only
      split
      · exact ⟨prompt, closes, fun _ => by simp⟩
      · exact ⟨prompt, closes, fun done => by cases done⟩
    | some lp =>
      obtain ⟨_, prompt', _, closes', _⟩ := pushLogprob_frame (o.pushToken s.id) lp
      simp only
      split
      · exact ⟨prompt'.trans prompt, closes'.trans closes, fun _ => by simp⟩
      · exact ⟨prompt'.trans prompt, closes'.trans closes, fun done => by cases done⟩

variable (req produced s) in
/-- What a sampled token does to an open request. -/
theorem consume_spec (opened : o.closes = []) :
    ((consume req o produced s).1.promptIds = o.promptIds ∧ (consume req o produced s).1.grammar = o.grammar ∧
      (consume req o produced s).1.closes = []) ∧
    ((s.id ∈ req.eosIds ∧ (consume req o produced s).1.tokens = o.tokens ∧
        (consume req o produced s).1.finishReason = "stop" ∧ (consume req o produced s).2 = (produced, true)) ∨
      (s.id ∉ req.eosIds ∧ req.maxTokens ≤ (produced + 1 : Nat) ∧
        (consume req o produced s).1.tokens = o.tokens ++ [s.id] ∧
        (consume req o produced s).1.finishReason = "length" ∧ (consume req o produced s).2 = (produced + 1, true)) ∨
      (s.id ∉ req.eosIds ∧ ¬req.maxTokens ≤ (produced + 1 : Nat) ∧
        (consume req o produced s).1.tokens = o.tokens ++ [s.id] ∧
        (consume req o produced s).1.finishReason = o.finishReason ∧
        (consume req o produced s).2 = (produced + 1, false))) := by
  have pushed : o.pushToken s.id = { o with tokens := o.tokens ++ [s.id] } := by
    unfold pushToken
    rw [opened]
    rfl
  have emitted : ∀ o' : Output G, (match s.logprob with | some lp => o'.pushLogprob lp | none => o').tokens = o'.tokens ∧
      (match s.logprob with | some lp => o'.pushLogprob lp | none => o').promptIds = o'.promptIds ∧
      (match s.logprob with | some lp => o'.pushLogprob lp | none => o').grammar = o'.grammar ∧
      (match s.logprob with | some lp => o'.pushLogprob lp | none => o').closes = o'.closes ∧
      (match s.logprob with | some lp => o'.pushLogprob lp | none => o').finishReason = o'.finishReason := by
    intro o'
    split
    · exact pushLogprob_frame o' _
    · exact ⟨rfl, rfl, rfl, rfl, rfl⟩
  obtain ⟨tokens, prompt, grammar, closes, reason⟩ := emitted (o.pushToken s.id)
  rw [pushed] at tokens prompt grammar closes reason
  unfold consume
  by_cases eos : s.id ∈ req.eosIds
  · rw [if_pos (by simpa using eos)]
    exact ⟨⟨rfl, rfl, opened⟩, .inl ⟨eos, rfl, rfl, rfl⟩⟩
  · rw [if_neg (by simpa using eos)]
    simp only [pushed]
    split
    · rename_i limit
      exact ⟨⟨prompt, grammar, closes.trans opened⟩, .inr (.inl ⟨eos, limit, tokens, rfl, rfl⟩)⟩
    · rename_i below
      exact ⟨⟨prompt, grammar, closes.trans opened⟩, .inr (.inr ⟨eos, below, tokens, reason, rfl⟩)⟩

end Output

end Mlxforge
