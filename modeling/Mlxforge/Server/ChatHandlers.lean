import Mlxforge.Server.OpenAi
import Mlxforge.Tokenizer.Detokenizer

/-!
The chat handlers over what they drain from a request's queues: `run_blocking` answers once, `stream_chat` sends frames
as text becomes complete.
-/

namespace Mlxforge

/-- A request that has run: its tokens with their log-prob records, why it ended, and whether log-probs were asked
for. -/
structure Generated where
  emitted : List (TokenLogprob Rat)
  finishReason : Bytes
  wantLp : Bool
  promptTokens : Int

/-- The server's side of a response. -/
structure Server where
  js : JsonLib
  tok : Tokenizer
  model : Bytes
  /-- `counter_` and the time of the response. -/
  counter : Nat
  created : Int

/-- The worker's reasons as OpenAI names them. -/
def finishReasonOf (workerReason : Bytes) : Bytes :=
  if workerReason = .ofAscii "length" then .ofAscii "length" else .ofAscii "stop"

namespace Generated

variable (r : Generated)

def ids : List Int := r.emitted.map (·.id)

/-- What the log-prob queue yields. -/
def logprobs : List (TokenLogprob Rat) := if r.wantLp then r.emitted else []

end Generated

namespace Server

variable (sv : Server)

def nextId (tag : String) : Bytes := .ofAscii (tag ++ toString sv.counter)

/-- What `parse_tool_calls` finds, when tools are on. -/
def calls (tools : Bool) (content : Bytes) : Except Exn (List ToolCall) :=
  if tools then parseToolCalls sv.js content else .ok []

def runBlocking (cr : ChatRequest) (r : Generated) : Except Exn Json :=
  let content := sv.tok.decode r.ids
  let finish := finishReasonOf r.finishReason
  let completionTokens : Int := r.ids.length
  if cr.isChat then do
    let calls ← sv.calls cr.toolsEnabled content
    if calls.isEmpty then
      let logprobsContent := if r.wantLp then makeLogprobsContent sv.tok r.logprobs else .null
      return makeChatCompletion (sv.nextId "chatcmpl-") sv.created sv.model content finish r.promptTokens completionTokens
        logprobsContent
    else
      return makeChatCompletionTools (sv.nextId "chatcmpl-") sv.created sv.model calls r.promptTokens completionTokens
  else
    .ok (.object [("id", .str (sv.nextId "cmpl-")), ("object", .text "text_completion"), ("created", .int sv.created),
      ("model", .str sv.model),
      ("choices", .arr [.object [("index", .int 0), ("text", .str content), ("finish_reason", .str finish)]]),
      ("usage", makeUsage r.promptTokens completionTokens)])

/-! ### Streaming -/

/-- Frames go out one after another until one cannot be serialized or the handler throws. -/
def sendFrames (thrown : Option Exn) : List Json → List Json × Option Exn
  | [] => ([], thrown)
  | frame :: frames =>
    match sv.js.dump frame with
    | .ok _ => (frame :: (sendFrames thrown frames).1, (sendFrames thrown frames).2)
    | .error e => ([], some e)

end Server

/-- The state of `stream_chat` between two tokens. -/
structure ChatStream where
  detok : StreamingDetokenizer
  buffered : Bytes := []
  buffering : Bool
  pendingLp : List (TokenLogprob Rat) := []

namespace ChatStream

variable (sv : Server)

def chunk (delta finishReason logprobsContent : Json) : Json :=
  makeChatChunk (sv.nextId "chatcmpl-") sv.created sv.model delta finishReason logprobsContent

def roleChunk : Json := chunk sv (.object [("role", .text "assistant")]) .null .null

/-- `send_content`: the text with the log-probs that were pending. -/
def sendContent (wantLp : Bool) (text : Bytes) (s : ChatStream) : List Json × ChatStream :=
  if text.isEmpty then ([], s)
  else
    let lp := if wantLp then makeLogprobsContent sv.tok s.pendingLp else .null
    ([chunk sv (.object [("content", .str text)]) .null lp], { s with pendingLp := [] })

/-- One round of the drain loop. -/
def onToken (wantLp : Bool) (s : ChatStream) (lp : TokenLogprob Rat) : List Json × ChatStream :=
  let s := if wantLp then { s with pendingLp := s.pendingLp ++ [lp] } else s
  let (piece, detok) := s.detok.add lp.id
  let s := { s with detok }
  if piece.isEmpty then ([], s)
  else if s.buffering then
    let s := { s with buffered := s.buffered ++ piece }
    match s.buffered.find? fun b => !isBlank b with
    | none => ([], s)  -- still only whitespace
    | some lead =>
      if lead = 0x7B then ([], s)  -- candidate tool call
      else
        let (frames, s) := sendContent sv wantLp s.buffered { s with buffering := false }
        (frames, { s with buffered := [] })
  else sendContent sv wantLp piece s

def drain (wantLp : Bool) (s : ChatStream) : List (TokenLogprob Rat) → List Json × ChatStream
  | [] => ([], s)
  | lp :: rest =>
    let (frames, s) := onToken sv wantLp s lp
    let (more, s) := drain wantLp s rest
    (frames ++ more, s)

/-- The frames after the last token. -/
def finishFrames (wantLp : Bool) (finishReason : Bytes) (s : ChatStream) : Except Exn (List Json) :=
  let (tail, detok) := s.detok.finish
  let s := { s with detok }
  let final (finish : Bytes) := chunk sv (.object []) (.str finish) .null
  if s.buffering then do
    let buffered := s.buffered ++ tail
    let calls ← parseToolCalls sv.js buffered
    if calls.isEmpty then
      return (sendContent sv wantLp buffered s).1 ++ [final (finishReasonOf finishReason)]
    else
      return [chunk sv (.object [("tool_calls", makeToolCalls calls)]) .null .null, final (.ofAscii "tool_calls")]
  else .ok ((sendContent sv wantLp tail s).1 ++ [final (finishReasonOf finishReason)])

end ChatStream

namespace Server

variable (sv : Server)

/-- The frames that `stream_chat` means to send, and what it throws. -/
def chatFrames (allowTools : Bool) (r : Generated) : List Json × Option Exn :=
  let (frames, s) := ChatStream.drain sv r.wantLp { detok := .new sv.tok, buffering := allowTools } r.emitted
  match ChatStream.finishFrames sv r.wantLp r.finishReason s with
  | .ok last => (ChatStream.roleChunk sv :: (frames ++ last), none)
  | .error e => (ChatStream.roleChunk sv :: frames, some e)

/-- The frames sent, and the exception that cut the stream off. -/
def streamChat (allowTools : Bool) (r : Generated) : List Json × Option Exn :=
  let (frames, thrown) := sv.chatFrames allowTools r
  sv.sendFrames thrown frames

end Server

end Mlxforge
