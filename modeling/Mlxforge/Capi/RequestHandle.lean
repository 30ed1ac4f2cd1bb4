import Mlxforge.Scheduler.RequestQueues

/-!
A request behind the C API: the four ways to submit one, and the calls of its consumer against the worker's
pushes.
-/

namespace Mlxforge

variable {F : Type}

/-- The fields of `mlxforge_sampling` that reach the request's queues. -/
structure Sampling where
  maxTokens : Int
  logprobs : Int

/-- `to_params(s).top_logprobs`: zero or less turns log-probs off, `n` asks for `n - 1` alternatives. -/
def toParamsTopLogprobs : Option Sampling → Int
  | none => -1
  | some s => if 0 < s.logprobs then s.logprobs - 1 else -1

def samplingMaxTokens : Option Sampling → Int
  | some s => if 0 < s.maxTokens then s.maxTokens else 64
  | none => 64

inductive EntryPoint where
  | submitChat | submitText | submitImage | submitImages
  deriving DecidableEq, Repr

/-- Where the consumer stands: between calls, at one of the pops of `request_next` or `request_free`, or done
with the handle. -/
inductive HandleAt where
  | idle | nextToken | nextLogprob | freeToken | freeLogprob | freed
  deriving DecidableEq, Repr

/-- `mlxforge_request`. -/
structure RequestHandle (F : Type) where
  location : HandleAt := .idle
  done : Bool := false
  wantLogprobs : Bool := false
  /-- The ids given to the streaming detokenizer. -/
  received : List Int := []
  logprobs : List (TokenLogprob F) := []

/-- `submit_ids`. -/
def submitIds (g : Generation F) : RequestHandle F := { wantLogprobs := decide (0 ≤ g.topLogprobs) }

/-- `submit_mm`. -/
def submitMm (_ : Generation F) : RequestHandle F := {}

def EntryPoint.submit : EntryPoint → Generation F → RequestHandle F
  | .submitChat, g => submitIds g
  | .submitText, g => submitIds g
  | .submitImage, g => submitMm g
  | .submitImages, g => submitMm g

/-- The request both submit functions enqueue. -/
def requestOf (sampling : Option Sampling) (samples : Nat → Int × TokenLogprob F) (eosIds : List Int) : Generation F where
  samples := samples
  eosIds := eosIds
  maxTokens := samplingMaxTokens sampling
  topLogprobs := toParamsTopLogprobs sampling

abbrev ApiState (F : Type) := RequestState F (RequestHandle F)

inductive ApiAction where
  | worker | admitFails
  /-- The consumer calls `request_next`, `request_cancel` or `request_free`. -/
  | next | cancel | free
  /-- The consumer takes its next pop. -/
  | pop

namespace RequestHandle

/-- `request_next` after an id: it returns once the detokenizer has complete text. -/
def delivered (completes : List Int → Bool) (h : RequestHandle F) : RequestHandle F :=
  { h with location := if completes h.received then .idle else .nextToken }

end RequestHandle

namespace ApiState

def popStep (completes : List Int → Bool) (s : ApiState F) : Option (ApiState F) :=
  let h := s.consumer
  match h.location with
  | .nextToken => do
    let (item, tokens) ← s.tokens.pop
    let s := { s with tokens }
    return match item with
      | some t =>
        let h := { h with received := h.received ++ [t] }
        { s with consumer := if h.wantLogprobs then { h with location := .nextLogprob } else h.delivered completes }
      | none => { s with consumer := { h with done := true, location := .idle } }
  | .nextLogprob => do
    let (item, logprobs) ← s.logprobs.pop
    let h := { h with logprobs := h.logprobs ++ item.toList }
    return { s with logprobs, consumer := h.delivered completes }
  | .freeToken => do
    let (item, tokens) ← s.tokens.pop
    let s := { s with tokens }
    return match item with
      | some _ => { s with consumer := { h with location := if h.wantLogprobs then .freeLogprob else .freeToken } }
      | none => { s with consumer := { h with location := .freed } }
  | .freeLogprob => do
    let (_, logprobs) ← s.logprobs.pop
    return { s with logprobs, consumer := { h with location := .freeToken } }
  | .idle | .freed => none

def apiStep (g : Generation F) (completes : List Int → Bool) (s : ApiState F) : ApiAction → Option (ApiState F)
  | .worker => s.workerStep g
  | .admitFails => s.admitFails
  | .next =>
    if s.consumer.location = .idle then
      some { s with consumer := if s.consumer.done then s.consumer else { s.consumer with location := .nextToken } }
    else none
  | .cancel => if s.consumer.location = .freed then none else some { s with cancelled := true }
  | .free =>
    if s.consumer.location = .idle then
      if s.consumer.done then some { s with consumer := { s.consumer with location := .freed } }
      else some { s with cancelled := true, consumer := { s.consumer with location := .freeToken } }
    else none
  | .pop => popStep completes s

/-- The consumer waits on an empty queue, or will not pop again. -/
def ConsumerGone (s : ApiState F) : Prop :=
  match s.consumer.location with
  | .nextToken | .freeToken => s.tokens.items = [] ∧ s.tokens.closed = false
  | .nextLogprob | .freeLogprob => s.logprobs.items = [] ∧ s.logprobs.closed = false
  | .idle => s.consumer.done = true
  | .freed => True

def Deadlock (s : ApiState F) : Prop := s.WorkerBlocked ∧ s.ConsumerGone

/-- A handle fresh from its submit function. -/
def submitted (entry : EntryPoint) (g : Generation F) : ApiState F := { consumer := entry.submit g }

end ApiState

end Mlxforge
