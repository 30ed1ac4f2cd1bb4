import Mathlib.Data.List.DropRight
import Mlxforge.Json.Dump
import Mlxforge.Scheduler.SpscQueue
import Mlxforge.Tokenizer.Tokenizer

/-!
The OpenAI surface: tool calls in the model's output, and the JSON of responses and stream chunks.
-/

namespace Mlxforge

/-- The JSON library: its parser, and the text of a number that is not an integer. -/
structure JsonLib where
  parse : Bytes → Except Exn Json
  num : Rat → Bytes

/-- Parsed strings are UTF-8, numbers are written in ASCII, and what was parsed is parsed again from its text. -/
structure JsonLib.Lawful (js : JsonLib) : Prop where
  clean : ∀ {s j}, js.parse s = .ok j → j.clean = true
  num : ∀ x, Utf8.Valid (js.num x)
  empty : js.parse (.ofAscii "\x7b\x7d") = .ok (.obj [])
  reparse : ∀ {s fields key v t}, js.parse s = .ok (.obj fields) → fields.lookup key = some v →
    Json.dump js.num v = .ok t → js.parse t = .ok v

def JsonLib.dump (js : JsonLib) : Json → Except Exn Bytes := Json.dump js.num

namespace Json

/-- A JSON object written out with ASCII keys. -/
def object (fields : List (String × Json)) : Json := .obj (fields.map fun f => (Bytes.ofAscii f.1, f.2))

def text (s : String) : Json := .str (.ofAscii s)

@[simp] theorem find?_object_nil (key : String) : (object []).find? key = none := rfl

@[simp] theorem find?_object_cons (key key' : String) (v : Json) (rest : List (String × Json)) :
    (object ((key', v) :: rest)).find? key =
      if Bytes.ofAscii key = Bytes.ofAscii key' then some v else (object rest).find? key := by
  simp only [object, find?, List.map_cons, List.lookup_cons]
  split <;> simp_all

end Json

structure ChatRequest where
  messages : List Message
  isChat : Bool := true
  /-- The decoded image bytes of each message. -/
  messageImages : List (List Bytes) := []
  logprobs : Bool := false
  topLogprobs : Int := 0
  tools : List Bytes := []
  toolChoice : Bytes := .ofAscii "auto"
  enableThinking : Bool := true

namespace ChatRequest

def hasImages (cr : ChatRequest) : Bool := cr.messageImages.any fun imgs => !imgs.isEmpty

def toolsEnabled (cr : ChatRequest) : Bool := !cr.tools.isEmpty && cr.toolChoice != .ofAscii "none"

end ChatRequest

/-! ### Tool calls -/

structure ToolCall where
  name : Bytes
  arguments : Bytes
  deriving DecidableEq, Repr

/-- The blanks of `find_first_not_of`. -/
def isBlank (b : UInt8) : Bool := b == 0x20 || b == 0x09 || b == 0x0D || b == 0x0A

def trim (s : Bytes) : Bytes := (s.dropWhile isBlank).rdropWhile isBlank

section
variable (js : JsonLib)

/-- The model emits `parameters`; `arguments` is taken too. -/
def callArguments (o : Json) : Except Exn Bytes :=
  match (o.find? "parameters").or (o.find? "arguments") with
  | none => .ok (.ofAscii "\x7b\x7d")
  | some args => if args.isNull then .ok (.ofAscii "\x7b\x7d") else js.dump args

def objectToCall (o : Json) : Except Exn (Option ToolCall) :=
  if !o.isObject then .ok none
  else match o.find? "name" with
    | some (.str name) => do return some { name, arguments := ← callArguments js o }
    | _ => .ok none

/-- The parts that `std::getline` reads. -/
def semicolonParts (s : Bytes) : List Bytes :=
  let parts := s.splitOn 0x3B
  if parts.getLast? = some [] then parts.dropLast else parts

/-- A part that does not parse is passed over. -/
def callsInParts : List Bytes → Except Exn (List ToolCall)
  | [] => .ok []
  | part :: parts =>
    match js.parse (trim part) with
    | .ok o => do
      let call ← objectToCall js o
      return call.toList ++ (← callsInParts parts)
    | .error .parse => callsInParts parts
    | .error e => .error e

def pyTag : Bytes := .ofAscii "<|python_tag|>"

/-- The text without blanks around it and without the tag. -/
def callText (text : Bytes) : Bytes :=
  let s := trim text
  if pyTag <+: s then trim (s.drop pyTag.length) else s

def parseToolCalls (text : Bytes) : Except Exn (List ToolCall) :=
  let s := callText text
  if s.head? ≠ some 0x7B then .ok []
  else match js.parse s with
    | .ok o => do return (← objectToCall js o).toList
    | .error .parse => callsInParts js (semicolonParts s)
    | .error e => .error e

end

def toolCallJson (i : Nat) (call : ToolCall) : Json :=
  .object [("id", .text ("call_" ++ toString i)), ("type", .text "function"),
    ("function", .object [("name", .str call.name), ("arguments", .str call.arguments)])]

def makeToolCalls (calls : List ToolCall) : Json := .arr (calls.mapIdx toolCallJson)

/-! ### Log-probs -/

section
variable (tok : Tokenizer)

def bytesJson (text : Bytes) : Json := .arr (text.map fun c => .int c.toNat)

/-- The fields `token`, `logprob` and `bytes`. -/
def logprobFields (id : Int) (logprob : Rat) : List (String × Json) :=
  let text := tok.decode [id]
  [("token", .str text), ("logprob", .float logprob), ("bytes", bytesJson text)]

/-- `lp_entry` and `logprob_entry`, which are the same. -/
def logprobEntry (id : Int) (logprob : Rat) : Json := .object (logprobFields tok id logprob)

/-- The entry of one emitted token with its alternatives. -/
def tokenEntry (lp : TokenLogprob Rat) : Json :=
  .object (logprobFields tok lp.id lp.logprob ++
    [("top_logprobs", .arr (lp.top.map fun alt => logprobEntry tok alt.1 alt.2))])

def makeLogprobsContent (logprobs : List (TokenLogprob Rat)) : Json := .arr (logprobs.map (tokenEntry tok))

end

/-! ### Responses -/

def makeUsage (promptTokens completionTokens : Int) : Json :=
  .object [("prompt_tokens", .int promptTokens), ("completion_tokens", .int completionTokens),
    ("total_tokens", .int (promptTokens + completionTokens))]

section
variable (id : Bytes) (created : Int) (model : Bytes)

def makeChatCompletion (content finishReason : Bytes) (promptTokens completionTokens : Int) (logprobsContent : Json) : Json :=
  let choice := Json.object [("index", .int 0),
    ("message", .object [("role", .text "assistant"), ("content", .str content)]), ("finish_reason", .str finishReason),
    -- null means that log-probs are off
    ("logprobs", if logprobsContent.isNull then .null else .object [("content", logprobsContent)])]
  .object [("id", .str id), ("object", .text "chat.completion"), ("created", .int created), ("model", .str model),
    ("choices", .arr [choice]), ("usage", makeUsage promptTokens completionTokens)]

def makeChatCompletionTools (calls : List ToolCall) (promptTokens completionTokens : Int) : Json :=
  let choice := Json.object [("index", .int 0),
    ("message", .object [("role", .text "assistant"), ("content", .null), ("tool_calls", makeToolCalls calls)]),
    ("finish_reason", .text "tool_calls")]
  .object [("id", .str id), ("object", .text "chat.completion"), ("created", .int created), ("model", .str model),
    ("choices", .arr [choice]), ("usage", makeUsage promptTokens completionTokens)]

def makeChatChunk (delta finishReason logprobsContent : Json) : Json :=
  let choice := Json.object ([("index", .int 0), ("delta", delta), ("finish_reason", finishReason)] ++
    if logprobsContent.isNull then [] else [("logprobs", .object [("content", logprobsContent)])])
  .object [("id", .str id), ("object", .text "chat.completion.chunk"), ("created", .int created), ("model", .str model),
    ("choices", .arr [choice])]

end

end Mlxforge
