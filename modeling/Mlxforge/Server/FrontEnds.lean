import Mlxforge.Scheduler.Request
import Mlxforge.Server.OpenAi
import Mlxforge.Tokenizer.ChatTemplate

/-!
How text becomes a request: `submit_chat` and `submit_text` of the C API, and the completion routes of the HTTP server.
-/

namespace Mlxforge

/-- `mlxforge_sampling`; a number that is not finite is `none`. -/
structure SamplingOptions where
  temperature : Option Rat
  topK : Int
  topP : Option Rat
  minP : Option Rat
  repetitionPenalty : Option Rat
  frequencyPenalty : Option Rat
  presencePenalty : Option Rat
  seed : UInt64
  maxTokens : Int
  jsonSchema : String := ""
  logprobs : Int

/-- What the completion routes read from the body. -/
structure ApiRequest extends ChatRequest where
  model : Bytes := []
  params : SamplingParams := {}
  maxTokens : Int := 128

/-- An engine behind its front ends. `date` is today's, and `imageTokenCount` probes an image for its placeholders. -/
structure FrontEnds where
  tok : Tokenizer
  tables : UnicodeTables
  date : Bytes
  eosTokenIds : List Int
  modelName : Bytes
  maxCtx : Int
  hasVisionTower : Bool
  imageTokenCount : Bytes → Except Exn Int

/-- Why no request is made. -/
inductive Refusal where
  | thrown (e : Exn)
  | http (status : Nat) (message type code : Bytes)
  deriving DecidableEq

/-- What a caller hands over: messages or a text to the C API, a parsed body to the HTTP server. -/
inductive Submission where
  | chat (messages : List (Bytes × Bytes)) (sampling : Option SamplingOptions)
  | text (prompt : Bytes) (sampling : Option SamplingOptions)
  | http (cr : ApiRequest)

namespace FrontEnds

/-- The value where it is within the range, and else the one that switches the setting off. -/
def inRange (p : Rat → Bool) (off : Rat) (x : Option Rat) : Rat := (x.filter p).getD off

def toParams : Option SamplingOptions → SamplingParams
  | none => { temperature := 0 }  -- greedy
  | some s => {
    temperature := s.temperature.getD 0
    topK := if 0 < s.topK then s.topK else 0
    topP := inRange (fun p => 0 < p && p < 1) 1 s.topP
    minP := inRange (fun p => 0 < p && p ≤ 1) 0 s.minP
    repetitionPenalty := inRange (0 < ·) 1 s.repetitionPenalty
    frequencyPenalty := s.frequencyPenalty.getD 0
    presencePenalty := s.presencePenalty.getD 0
    seed := s.seed
    topLogprobs := if 0 < s.logprobs then s.logprobs - 1 else -1 }

def samplingMaxTokens (s : Option SamplingOptions) : Int :=
  match s with
  | some s => if 0 < s.maxTokens then s.maxTokens else 64
  | none => 64

variable (fe : FrontEnds)

def submitIds (promptIds : List Int) (sampling : Option SamplingOptions) : Request where
  promptIds := promptIds
  params := toParams sampling
  maxTokens := samplingMaxTokens sampling
  eosIds := fe.eosTokenIds
  jsonSchema := match sampling with
    | some s => s.jsonSchema
    | none => ""

/-- Whether the template renders the turn's images. -/
def rendersImages (m : Message) : Bool := m.role ≠ ascii "tool" && m.role ≠ ascii "assistant"

/-- The messages with their placeholder counts, and the images in their order. -/
def withImages : List (Message × List Bytes) → Except Exn (List Message × List Bytes)
  | [] => .ok ([], [])
  | (m, images) :: rest => do
    let counts ← if rendersImages m then images.mapM fe.imageTokenCount else pure []
    let (messages, later) ← withImages rest
    return ({ m with imageTokenCounts := m.imageTokenCounts ++ counts } :: messages,
      (if rendersImages m then images else []) ++ later)

/-- The images of a leading system turn are passed over. -/
def messagesWithImages (cr : ApiRequest) : Except Exn (List Message × List Bytes) :=
  match cr.messages, cr.messageImages with
  | m :: rest, _ :: later =>
    if m.role = ascii "system" then do
      let (messages, images) ← fe.withImages (rest.zip later)
      return (m :: messages, images)
    else fe.withImages (cr.messages.zip cr.messageImages)
  | messages, _ => .ok (messages, [])

def makeRequest (cr : ApiRequest) : Option (Except Exn Request) :=
  let req : Request := {
    params := { cr.params with topLogprobs := if cr.logprobs && !cr.hasImages then cr.topLogprobs else -1 }
    maxTokens := cr.maxTokens
    eosIds := fe.eosTokenIds }
  if cr.hasImages then
    if !fe.hasVisionTower then some (.error (.runtime "this model does not support image input"))
    else match fe.messagesWithImages cr with
      | .error e => some (.error e)
      | .ok (messages, mmImages) =>
        (fe.tok.applyChatTemplate fe.tables messages fe.date [] cr.enableThinking).map fun promptIds =>
          .ok { req with promptIds, mmImages }
  else
    let tools := if cr.toolsEnabled then cr.tools else []
    let promptIds := if cr.isChat then fe.tok.applyChatTemplate fe.tables cr.messages fe.date tools cr.enableThinking
      else match cr.messages with
        | m :: _ => fe.tok.encode fe.tables m.content
        | [] => none
    promptIds.map fun promptIds => .ok { req with promptIds }

def submitRequest (cr : ApiRequest) : Option (Except Refusal Request) :=
  if cr.model ≠ [] ∧ cr.model ≠ fe.modelName then
    some (.error (.http 404 (ascii "model '" ++ cr.model ++ ascii "' is not available; this server serves '" ++ fe.modelName ++
      ascii "'") (ascii "invalid_request_error") (ascii "model_not_found")))
  else (fe.makeRequest cr).map fun made =>
    match made with
    | .error e => .error (.thrown e)
    | .ok req =>
      if 0 < fe.maxCtx ∧ fe.maxCtx < req.promptIds.length then
        .error (.http 400 (ascii "prompt exceeds the maximum context length") (ascii "invalid_request_error")
          (ascii "context_length_exceeded"))
      else .ok req

/-- The request that goes to the scheduler; none where the encoder does not return. -/
def request : Submission → Option (Except Refusal Request)
  | .chat messages sampling =>
    (fe.tok.applyChatTemplate fe.tables (messages.map fun m => { role := m.1, content := m.2 }) fe.date).map fun ids =>
      .ok (fe.submitIds ids sampling)
  | .text prompt sampling => (fe.tok.encode fe.tables prompt).map fun ids => .ok (fe.submitIds ids sampling)
  | .http cr => fe.submitRequest cr

/-- The text that is encoded for a submission. -/
def promptText : Submission → Bytes
  | .chat messages _ =>
    renderChatTemplate (messages.map fun m => { role := m.1, content := m.2 }) true fe.date fe.tok.chatFormat [] true
  | .text prompt _ => prompt
  | .http cr =>
    if cr.hasImages then
      match fe.messagesWithImages cr with
      | .ok (messages, _) => renderChatTemplate messages true fe.date fe.tok.chatFormat [] cr.enableThinking
      | .error _ => []
    else if cr.isChat then
      renderChatTemplate cr.messages true fe.date fe.tok.chatFormat (if cr.toolsEnabled then cr.tools else []) cr.enableThinking
    else (cr.messages.head?.map Message.content).getD []

variable {fe} {sub : Submission} {req : Request}

theorem makeRequest_prompt {cr : ApiRequest} (made : fe.makeRequest cr = some (.ok req)) :
    fe.tok.encode fe.tables (fe.promptText (.http cr)) = some req.promptIds ∧ req.embedding = false := by
  simp only [makeRequest] at made
  simp only [promptText]
  split at made
  next images =>
    rw [if_pos images]
    split at made
    · cases made
    · cases given : fe.messagesWithImages cr with
      | error e =>
        rw [given] at made
        cases made
      | ok rendered =>
        rw [given] at made
        obtain ⟨ids, encoded, same⟩ := Option.map_eq_some_iff.mp made
        obtain rfl := Except.ok.inj same
        exact ⟨encoded, rfl⟩
  next plain =>
    rw [if_neg plain]
    obtain ⟨ids, encoded, same⟩ := Option.map_eq_some_iff.mp made
    obtain rfl := Except.ok.inj same
    refine ⟨?_, rfl⟩
    split at encoded
    next chat =>
      rw [if_pos chat]
      exact encoded
    next completion =>
      rw [if_neg completion]
      cases given : cr.messages with
      | nil =>
        rw [given] at encoded
        cases encoded
      | cons m rest =>
        rw [given] at encoded
        exact encoded

/-- The prompt of every request is its submission's text, encoded, and no request is for an embedding. -/
theorem request_prompt (made : fe.request sub = some (.ok req)) :
    fe.tok.encode fe.tables (fe.promptText sub) = some req.promptIds ∧ req.embedding = false := by
  cases sub with
  | chat messages sampling =>
    obtain ⟨ids, encoded, same⟩ := Option.map_eq_some_iff.mp made
    obtain rfl := Except.ok.inj same
    exact ⟨encoded, rfl⟩
  | text prompt sampling =>
    obtain ⟨ids, encoded, same⟩ := Option.map_eq_some_iff.mp made
    obtain rfl := Except.ok.inj same
    exact ⟨encoded, rfl⟩
  | http cr =>
    simp only [request, submitRequest] at made
    split at made
    · cases made
    · obtain ⟨outcome, given, same⟩ := Option.map_eq_some_iff.mp made
      cases outcome with
      | error e => cases same
      | ok req' =>
        dsimp only at same
        split at same
        · cases same
        · obtain rfl := Except.ok.inj same
          exact makeRequest_prompt given

end FrontEnds

end Mlxforge
