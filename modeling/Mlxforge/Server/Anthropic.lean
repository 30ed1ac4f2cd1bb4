import Mlxforge.Server.ChatHandlers

/-!
The Anthropic surface: tool-use blocks, the response, the events of a stream, and the two handlers, which treat the
text as the chat handlers do.
-/

namespace Mlxforge

section
variable (js : JsonLib)

/-- What does not parse is an empty object. -/
def toolInput (arguments : Bytes) : Except Exn Json :=
  match js.parse arguments with
  | .ok input => .ok input
  | .error .parse => .ok (.object [])
  | .error e => .error e

def toolUseBlock (i : Nat) (name : Bytes) (input : Json) : Json :=
  .object [("type", .text "tool_use"), ("id", .text ("toolu_" ++ toString i)), ("name", .str name), ("input", input)]

/-- The loop of `make_tool_use_blocks` from a call on. -/
def makeToolUseBlocksFrom (i : Nat) : List ToolCall → Except Exn (List Json)
  | [] => .ok []
  | call :: calls => do
    let input ← toolInput js call.arguments
    return toolUseBlock i call.name input :: (← makeToolUseBlocksFrom (i + 1) calls)

def makeToolUseBlocks (calls : List ToolCall) : Except Exn (List Json) := makeToolUseBlocksFrom js 0 calls

end

def anthropicUsage (inputTokens outputTokens : Int) : Json :=
  .object [("input_tokens", .int inputTokens), ("output_tokens", .int outputTokens)]

def makeMessageResponse (id model : Bytes) (content : List Json) (stopReason : Bytes) (inputTokens outputTokens : Int) :
    Json :=
  .object [("id", .str id), ("type", .text "message"), ("role", .text "assistant"), ("model", .str model),
    ("content", .arr content), ("stop_reason", .str stopReason), ("stop_sequence", .null),
    ("usage", anthropicUsage inputTokens outputTokens)]

/-! ### Events -/

/-- The name of an event and its payload. -/
abbrev SseEvent := String × Json

def makeMessageStart (id model : Bytes) (inputTokens : Int) : Json :=
  .object [("type", .text "message_start"),
    ("message", .object [("id", .str id), ("type", .text "message"), ("role", .text "assistant"), ("model", .str model),
      ("content", .arr []), ("stop_reason", .null), ("stop_sequence", .null), ("usage", anthropicUsage inputTokens 0)])]

def makeContentBlockStart (index : Nat) (block : Json) : Json :=
  .object [("type", .text "content_block_start"), ("index", .int index), ("content_block", block)]

def makeTextDelta (index : Nat) (text : Bytes) : Json :=
  .object [("type", .text "content_block_delta"), ("index", .int index),
    ("delta", .object [("type", .text "text_delta"), ("text", .str text)])]

def makeInputJsonDelta (index : Nat) (partialJson : Bytes) : Json :=
  .object [("type", .text "content_block_delta"), ("index", .int index),
    ("delta", .object [("type", .text "input_json_delta"), ("partial_json", .str partialJson)])]

def makeContentBlockStop (index : Nat) : Json :=
  .object [("type", .text "content_block_stop"), ("index", .int index)]

def makeMessageDelta (stopReason : Bytes) (outputTokens : Int) : Json :=
  .object [("type", .text "message_delta"), ("delta", .object [("stop_reason", .str stopReason), ("stop_sequence", .null)]),
    ("usage", .object [("output_tokens", .int outputTokens)])]

def messageStop : Json := .object [("type", .text "message_stop")]

/-! ### The handlers -/

def anthropicStopReason (workerReason : Bytes) : Bytes :=
  if workerReason = .ofAscii "length" then .ofAscii "max_tokens" else .ofAscii "end_turn"

def textBlock (text : Bytes) : Json := .object [("type", .text "text"), ("text", .str text)]

def Server.runBlockingMessages (sv : Server) (cr : ChatRequest) (r : Generated) : Except Exn Json := do
  let content := sv.tok.decode r.ids
  let calls ← sv.calls cr.toolsEnabled content
  if calls.isEmpty then
    return makeMessageResponse (sv.nextId "msg_") sv.model [textBlock content] (anthropicStopReason r.finishReason)
      r.promptTokens r.ids.length
  else
    return makeMessageResponse (sv.nextId "msg_") sv.model (← makeToolUseBlocks sv.js calls) (.ofAscii "tool_use")
      r.promptTokens r.ids.length

/-- The state of `stream_messages` between two tokens. -/
structure MessageStream where
  detok : StreamingDetokenizer
  buffered : Bytes := []
  buffering : Bool
  textOpen : Bool := false

namespace MessageStream

def openText (m : MessageStream) : List SseEvent × MessageStream :=
  if m.textOpen then ([], m)
  else ([("content_block_start", makeContentBlockStart 0 (textBlock []))], { m with textOpen := true })

def sendText (text : Bytes) (m : MessageStream) : List SseEvent × MessageStream :=
  if text.isEmpty then ([], m)
  else (m.openText.1 ++ [("content_block_delta", makeTextDelta 0 text)], m.openText.2)

def onToken (m : MessageStream) (id : Int) : List SseEvent × MessageStream :=
  let (piece, detok) := m.detok.add id
  let m := { m with detok }
  if piece.isEmpty then ([], m)
  else if m.buffering then
    let m := { m with buffered := m.buffered ++ piece }
    match m.buffered.find? fun b => !isBlank b with
    | none => ([], m)  -- still only whitespace
    | some lead =>
      if lead = 0x7B then ([], m)  -- candidate tool call
      else
        let (events, m) := sendText m.buffered { m with buffering := false }
        (events, { m with buffered := [] })
  else sendText piece m

def drain (m : MessageStream) : List Int → List SseEvent × MessageStream
  | [] => ([], m)
  | id :: ids =>
    let (events, m) := m.onToken id
    let (more, m) := m.drain ids
    (events ++ more, m)

/-- One call is a block of its own. -/
def callEvents (i : Nat) (call : ToolCall) : List SseEvent :=
  [("content_block_start", makeContentBlockStart i (toolUseBlock i call.name (.object []))),
    ("content_block_delta", makeInputJsonDelta i call.arguments), ("content_block_stop", makeContentBlockStop i)]

/-- The end of every stream: a text block is closed. -/
def closing (textOpen : Bool) (stopReason : Bytes) (outputTokens : Int) : List SseEvent :=
  (if textOpen then [("content_block_stop", makeContentBlockStop 0)] else []) ++
    [("message_delta", makeMessageDelta stopReason outputTokens), ("message_stop", messageStop)]

/-- The end of a stream without tool calls, which has a text block even if it is empty. -/
def finishText (text stopReason : Bytes) (outputTokens : Int) (m : MessageStream) : List SseEvent :=
  let (events, m) := sendText text m
  let (opened, m) := m.openText
  events ++ opened ++ closing m.textOpen stopReason outputTokens

/-- The events after the last token. -/
def finishEvents (js : JsonLib) (finishReason : Bytes) (outputTokens : Int) (m : MessageStream) :
    Except Exn (List SseEvent) :=
  let (tail, detok) := m.detok.finish
  let m := { m with detok }
  if m.buffering then do
    let buffered := m.buffered ++ tail
    let calls ← parseToolCalls js buffered
    if calls.isEmpty then return finishText buffered (anthropicStopReason finishReason) outputTokens m
    else return (calls.mapIdx callEvents).flatten ++ closing m.textOpen (.ofAscii "tool_use") outputTokens
  else .ok (finishText tail (anthropicStopReason finishReason) outputTokens m)

end MessageStream

namespace Server

variable (sv : Server)

/-- The events that `stream_messages` means to send, and what it throws. -/
def messageEvents (allowTools : Bool) (r : Generated) : List SseEvent × Option Exn :=
  let start := ("message_start", makeMessageStart (sv.nextId "msg_") sv.model r.promptTokens)
  let (events, m) := MessageStream.drain { detok := .new sv.tok, buffering := allowTools } r.ids
  match MessageStream.finishEvents sv.js r.finishReason r.ids.length m with
  | .ok last => (start :: (events ++ last), none)
  | .error e => (start :: events, some e)

/-- The payloads sent, and the exception that cut the stream off. -/
def streamMessages (allowTools : Bool) (r : Generated) : List Json × Option Exn :=
  let (events, thrown) := sv.messageEvents allowTools r
  sv.sendFrames thrown (events.map (·.2))

end Server

end Mlxforge
