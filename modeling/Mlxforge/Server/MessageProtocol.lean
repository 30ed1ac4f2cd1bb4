import Mlxforge.Server.ChatClient
import Mlxforge.Server.MessageStreaming
import Mlxforge.Server.Reporting

/-!
The events of `stream_messages` as a protocol: a client that insists on their order accepts every stream, follows it to
the end exactly if the stream was not cut off, and puts together the message that a blocking request returns.
-/

namespace Mlxforge

open ChatStream (Round Streaming Content partOf)

/-! ### A strict client -/

namespace Json

def str? (key : String) (j : Json) : Option Bytes :=
  match j.find? key with
  | some (.str s) => some s
  | _ => none

def int? (key : String) (j : Json) : Option Int :=
  match j.find? key with
  | some (.int i) => some i
  | _ => none

/-- A field that is there gets another value. -/
def assign (j : Json) (key : String) (v : Json) : Json :=
  match j with
  | .obj fields => .obj (fields.map fun f => if f.1 = .ofAscii key then (f.1, v) else f)
  | j => j

end Json

inductive MessageEvent where
  | messageStart (message : Json)
  | blockStart (index : Int) (block : Json)
  | textDelta (index : Int) (text : Bytes)
  | inputDelta (index : Int) (partialJson : Bytes)
  | blockStop (index : Int)
  | messageDelta (stopReason stopSequence : Json) (outputTokens : Json)
  | messageStop

def readDelta (index : Int) (delta : Json) : Option MessageEvent := do
  let type ← delta.str? "type"
  if type = .ofAscii "text_delta" then return .textDelta index (← delta.str? "text")
  else if type = .ofAscii "input_json_delta" then return .inputDelta index (← delta.str? "partial_json")
  else none

/-- The name of an event is the type its payload gives. -/
def readEvent (name : Bytes) (payload : Json) : Option MessageEvent := do
  let type ← payload.str? "type"
  if type ≠ name then none
  else if type = .ofAscii "message_start" then return .messageStart (← payload.find? "message")
  else if type = .ofAscii "content_block_start" then
    return .blockStart (← payload.int? "index") (← payload.find? "content_block")
  else if type = .ofAscii "content_block_delta" then readDelta (← payload.int? "index") (← payload.find? "delta")
  else if type = .ofAscii "content_block_stop" then return .blockStop (← payload.int? "index")
  else if type = .ofAscii "message_delta" then do
    let delta ← payload.find? "delta"
    let usage ← payload.find? "usage"
    return .messageDelta (← delta.find? "stop_reason") (← delta.find? "stop_sequence") (← usage.find? "output_tokens")
  else if type = .ofAscii "message_stop" then return .messageStop
  else none

/-- A content block with the text that its deltas have brought. -/
structure Block where
  start : Json
  text : Bytes := []

/-- Where a client is in the stream. -/
inductive MessageClient where
  | waiting
  | between (message : Json) (blocks : List Block)
  | inside (message : Json) (blocks : List Block) (block : Block)
  | ending (message : Json) (blocks : List Block) (stopReason stopSequence outputTokens : Json)
  | ended (message : Json) (blocks : List Block) (stopReason stopSequence outputTokens : Json)

namespace MessageClient

/-- Blocks are numbered from 0 and do not overlap, a delta goes to the open block and has its type, and the message is
closed after its blocks. -/
def step : MessageClient → MessageEvent → Option MessageClient
  | .waiting, .messageStart message => some (.between message [])
  | .between message blocks, .blockStart index block =>
    if index = blocks.length then some (.inside message blocks { start := block }) else none
  | .inside message blocks block, .textDelta index text =>
    if index = blocks.length ∧ block.start.str? "type" = some (.ofAscii "text") then
      some (.inside message blocks { block with text := block.text ++ text })
    else none
  | .inside message blocks block, .inputDelta index text =>
    if index = blocks.length ∧ block.start.str? "type" = some (.ofAscii "tool_use") then
      some (.inside message blocks { block with text := block.text ++ text })
    else none
  | .inside message blocks block, .blockStop index =>
    if index = blocks.length then some (.between message (blocks ++ [block])) else none
  | .between message blocks, .messageDelta reason sequence tokens => some (.ending message blocks reason sequence tokens)
  | .ending message blocks reason sequence tokens, .messageStop => some (.ended message blocks reason sequence tokens)
  | _, _ => none

def receive (client : MessageClient) (event : Bytes × Json) : Option MessageClient :=
  (readEvent event.1 event.2).bind client.step

def run (client : MessageClient) (events : List (Bytes × Json)) : Option MessageClient := events.foldlM receive client

def isEnded : MessageClient → Bool
  | .ended .. => true
  | _ => false

end MessageClient

/-- What a block is when it is closed; the pieces of a tool's input are parsed together. -/
def Block.finish (js : JsonLib) (b : Block) : Except Exn Json :=
  if b.start.str? "type" = some (.ofAscii "tool_use") then do return b.start.assign "input" (← js.parse b.text)
  else .ok (b.start.assign "text" (.str ((b.start.str? "text").getD [] ++ b.text)))

/-- The message put together. -/
def MessageClient.message (js : JsonLib) : MessageClient → Except Exn Json
  | .ended message blocks reason sequence tokens => do
    let content ← blocks.mapM (Block.finish js)
    let usage := (message.find? "usage").getD .null
    return (((message.assign "content" (.arr content)).assign "stop_reason" reason).assign "stop_sequence" sequence).assign
      "usage" (usage.assign "output_tokens" tokens)
  | _ => .error .undefined

/-! ### What the payloads say -/

/-- A change of representation that keeps the fields of an object. -/
structure Json.Rekeys (f : Json → Json) : Prop where
  str : ∀ s, f (.str s) = .str s
  int : ∀ i, f (.int i) = .int i
  find : ∀ {fields : List (String × Json)}, (fields.map fun field => Bytes.ofAscii field.1).Nodup → ∀ key,
    (f (.object fields)).find? key = ((Json.object fields).find? key).map f

theorem Json.rekeys_id : Json.Rekeys id := ⟨fun _ => rfl, fun _ => rfl, by simp⟩

theorem Json.rekeys_sorted : Json.Rekeys Json.sorted := ⟨fun _ => rfl, fun _ => rfl, Json.find?_sorted⟩

/-- An event as a client gets it. -/
def delivered (f : Json → Json) (event : SseEvent) : Bytes × Json := (.ofAscii event.1, f event.2)

/-- The message of `message_start`. -/
def startMessage (id model : Bytes) (inputTokens : Int) : Json :=
  .object [("id", .str id), ("type", .text "message"), ("role", .text "assistant"), ("model", .str model),
    ("content", .arr []), ("stop_reason", .null), ("stop_sequence", .null), ("usage", anthropicUsage inputTokens 0)]

section
variable {f : Json → Json} (rekeys : Json.Rekeys f)

include rekeys

theorem readEvent_messageStart (id model : Bytes) (n : Int) :
    readEvent (.ofAscii "message_start") (f (makeMessageStart id model n)) =
      some (.messageStart (f (startMessage id model n))) := by
  have fields : ∀ key, (f (makeMessageStart id model n)).find? key = ((makeMessageStart id model n).find? key).map f :=
    rekeys.find (by simp +decide)
  unfold readEvent Json.str?
  simp only [fields]
  simp +decide [makeMessageStart, rekeys.str, Json.text, startMessage]

theorem readEvent_blockStart (i : Nat) (block : Json) :
    readEvent (.ofAscii "content_block_start") (f (makeContentBlockStart i block)) = some (.blockStart i (f block)) := by
  have fields : ∀ key, (f (makeContentBlockStart i block)).find? key = ((makeContentBlockStart i block).find? key).map f :=
    rekeys.find (by simp +decide)
  unfold readEvent Json.str? Json.int?
  simp only [fields]
  simp +decide [makeContentBlockStart, rekeys.str, rekeys.int, Json.text]

theorem readEvent_textDelta (i : Nat) (text : Bytes) :
    readEvent (.ofAscii "content_block_delta") (f (makeTextDelta i text)) = some (.textDelta i text) := by
  have fields : ∀ key, (f (makeTextDelta i text)).find? key = ((makeTextDelta i text).find? key).map f :=
    rekeys.find (by simp +decide)
  have delta : ∀ key, (f (.object [("type", .text "text_delta"), ("text", .str text)])).find? key =
      ((Json.object [("type", .text "text_delta"), ("text", .str text)]).find? key).map f := rekeys.find (by simp +decide)
  unfold readEvent readDelta Json.str? Json.int?
  simp only [fields]
  simp +decide [makeTextDelta, rekeys.str, rekeys.int, Json.text]
  simp only [Json.text] at delta
  simp +decide [delta, rekeys.str]

theorem readEvent_inputDelta (i : Nat) (text : Bytes) :
    readEvent (.ofAscii "content_block_delta") (f (makeInputJsonDelta i text)) = some (.inputDelta i text) := by
  have fields : ∀ key, (f (makeInputJsonDelta i text)).find? key = ((makeInputJsonDelta i text).find? key).map f :=
    rekeys.find (by simp +decide)
  have delta : ∀ key, (f (.object [("type", .text "input_json_delta"), ("partial_json", .str text)])).find? key =
      ((Json.object [("type", .text "input_json_delta"), ("partial_json", .str text)]).find? key).map f :=
    rekeys.find (by simp +decide)
  unfold readEvent readDelta Json.str? Json.int?
  simp only [fields]
  simp +decide [makeInputJsonDelta, rekeys.str, rekeys.int, Json.text]
  simp only [Json.text] at delta
  simp +decide [delta, rekeys.str]

theorem readEvent_blockStop (i : Nat) :
    readEvent (.ofAscii "content_block_stop") (f (makeContentBlockStop i)) = some (.blockStop i) := by
  have fields : ∀ key, (f (makeContentBlockStop i)).find? key = ((makeContentBlockStop i).find? key).map f :=
    rekeys.find (by simp +decide)
  unfold readEvent Json.str? Json.int?
  simp only [fields]
  simp +decide [makeContentBlockStop, rekeys.str, rekeys.int, Json.text]

theorem readEvent_messageDelta (reason : Bytes) (n : Int) :
    readEvent (.ofAscii "message_delta") (f (makeMessageDelta reason n)) =
      some (.messageDelta (.str reason) (f .null) (.int n)) := by
  have fields : ∀ key, (f (makeMessageDelta reason n)).find? key = ((makeMessageDelta reason n).find? key).map f :=
    rekeys.find (by simp +decide)
  have delta : ∀ key, (f (.object [("stop_reason", .str reason), ("stop_sequence", .null)])).find? key =
      ((Json.object [("stop_reason", .str reason), ("stop_sequence", .null)]).find? key).map f :=
    rekeys.find (by simp +decide)
  have usage : ∀ key, (f (.object [("output_tokens", .int n)])).find? key =
      ((Json.object [("output_tokens", .int n)]).find? key).map f := rekeys.find (by simp +decide)
  unfold readEvent Json.str?
  simp only [fields]
  simp +decide [makeMessageDelta, delta, usage, rekeys.str, rekeys.int, Json.text]

theorem readEvent_messageStop : readEvent (.ofAscii "message_stop") (f messageStop) = some .messageStop := by
  have fields : ∀ key, (f messageStop).find? key = (messageStop.find? key).map f := rekeys.find (by simp +decide)
  unfold readEvent Json.str?
  simp only [fields]
  simp +decide [messageStop, rekeys.str, Json.text]

theorem textBlock_type (text : Bytes) : (f (textBlock text)).str? "type" = some (.ofAscii "text") := by
  have fields : ∀ key, (f (textBlock text)).find? key = ((textBlock text).find? key).map f := rekeys.find (by simp +decide)
  unfold Json.str?
  rw [fields]
  simp +decide [textBlock, rekeys.str, Json.text]

theorem toolUseBlock_type (i : Nat) (name : Bytes) (input : Json) :
    (f (toolUseBlock i name input)).str? "type" = some (.ofAscii "tool_use") := by
  have fields : ∀ key, (f (toolUseBlock i name input)).find? key = ((toolUseBlock i name input).find? key).map f :=
    rekeys.find (by simp +decide)
  unfold Json.str?
  rw [fields]
  simp +decide [toolUseBlock, rekeys.str, Json.text]

end

/-! ### The shape of a stream -/

namespace MessageStream

variable {m m' : MessageStream} {events : List SseEvent}

/-- The events of some texts: the block is opened before the first one. -/
def shown (textOpen : Bool) (texts : List Bytes) : List SseEvent :=
  if texts = [] then []
  else (if textOpen then [] else [("content_block_start", makeContentBlockStart 0 (textBlock []))]) ++
    texts.map fun text => ("content_block_delta", makeTextDelta 0 text)

theorem shown_append (textOpen : Bool) (before after : List Bytes) :
    shown textOpen (before ++ after) = shown textOpen before ++ shown (textOpen || !before.isEmpty) after := by
  cases before with
  | nil => simp [shown]
  | cons text before =>
    by_cases none : after = []
    · simp [shown, none]
    · cases textOpen <;> simp [shown, none]

theorem sendText_shown {text : Bytes} (some : text ≠ []) (m : MessageStream) :
    sendText text m = (shown m.textOpen [text], { m with textOpen := true }) := by
  have nonempty : ¬text.isEmpty = true := by simpa using some
  obtain ⟨detok, buffered, buffering, textOpen⟩ := m
  unfold sendText
  rw [if_neg nonempty]
  cases textOpen <;> rfl

/-- The texts of a piece that may be empty. -/
def textsOf (text : Bytes) : List Bytes := if text = [] then [] else [text]

theorem textsOf_flatten (text : Bytes) : (textsOf text).flatten = text := by
  unfold textsOf
  split
  next none => rw [none]; rfl
  · simp

theorem sendText_textsOf (text : Bytes) (m : MessageStream) :
    sendText text m = (shown m.textOpen (textsOf text), { m with textOpen := m.textOpen || !(textsOf text).isEmpty }) := by
  unfold textsOf
  by_cases none : text = []
  · subst none
    simp [sendText, shown]
  · rw [sendText_shown none]
    simp [none]

/-- One round of the loop, with its events. -/
theorem onToken_shown {lp : TokenLogprob Rat} (h : m.onToken lp.id = (events, m')) :
    ∃ new, Round false m.toChat lp new m'.toChat ∧ events = shown m.textOpen (new.map (·.1)) ∧
      m'.textOpen = (m.textOpen || !new.isEmpty) := by
  obtain ⟨new, round, -⟩ := onToken_round h
  refine ⟨new, round, ?_⟩
  obtain ⟨piece, detok, hadd, what⟩ := round
  have hadd' : m.detok.add lp.id = (piece, detok) := hadd
  unfold onToken at h
  rw [hadd'] at h
  dsimp only at h
  obtain ⟨none, rfl, -⟩ | ⟨some, buffering, holds, rfl, -⟩ | ⟨some, buffering, freed, rfl, -⟩ | ⟨some, live, rfl, -⟩ := what
  · rw [if_pos (by simpa using none)] at h
    obtain ⟨rfl, rfl⟩ := Prod.mk.inj h
    simp [shown]
  · have nonempty : ¬piece.isEmpty = true := by simpa using some
    rw [if_neg nonempty, if_pos (show m.buffering = true from buffering)] at h
    change held (m.buffered ++ piece) = true at holds
    unfold held at holds
    cases first : (m.buffered ++ piece).find? fun b => !isBlank b with
    | none =>
      rw [first] at h
      obtain ⟨rfl, rfl⟩ := Prod.mk.inj h
      simp [shown]
    | some lead =>
      rw [first] at h holds
      dsimp only at h
      rw [if_pos (by simpa using holds)] at h
      obtain ⟨rfl, rfl⟩ := Prod.mk.inj h
      simp [shown]
  · have nonempty : ¬piece.isEmpty = true := by simpa using some
    have text : m.buffered ++ piece ≠ [] := by simp [some]
    rw [if_neg nonempty, if_pos (show m.buffering = true from buffering)] at h
    change held (m.buffered ++ piece) = false at freed
    unfold held at freed
    cases first : (m.buffered ++ piece).find? fun b => !isBlank b with
    | none =>
      rw [first] at freed
      cases freed
    | some lead =>
      rw [first] at h freed
      dsimp only at h
      rw [if_neg (by simpa using freed), sendText_shown text] at h
      obtain ⟨rfl, rfl⟩ := Prod.mk.inj h
      exact ⟨rfl, by simp⟩
  · have nonempty : ¬piece.isEmpty = true := by simpa using some
    have live : ¬m.buffering = true := by simpa using (show m.buffering = false from live)
    rw [if_neg nonempty, if_neg live, sendText_shown some] at h
    obtain ⟨rfl, rfl⟩ := Prod.mk.inj h
    exact ⟨rfl, by simp⟩

theorem drain_shown {sv : Server} {tools : Bool} {done rest : List (TokenLogprob Rat)} {parts : List Part}
    (h : Streaming sv tools false done parts m.toChat) (run : m.drain (rest.map (·.id)) = (events, m')) :
    ∃ new, Streaming sv tools false (done ++ rest) (parts ++ new) m'.toChat ∧
      events = shown m.textOpen (new.map (·.1)) ∧ m'.textOpen = (m.textOpen || !new.isEmpty) := by
  induction rest generalizing done parts m events with
  | nil =>
    obtain ⟨rfl, rfl⟩ := Prod.mk.inj run
    exact ⟨[], by simpa using h, by simp [shown]⟩
  | cons lp rest ih =>
    rw [List.map_cons] at run
    unfold drain at run
    rcases first : m.onToken lp.id with ⟨now, m₁⟩
    rcases more : m₁.drain (rest.map (·.id)) with ⟨later, m₂⟩
    rw [first] at run
    dsimp only at run
    rw [more] at run
    obtain ⟨rfl, rfl⟩ := Prod.mk.inj run
    obtain ⟨new, step, rfl, opened⟩ := onToken_shown first
    obtain ⟨new', last, rfl, opened'⟩ := ih (h.round step) more
    refine ⟨new ++ new', by simpa using last, ?_, ?_⟩
    · rw [List.map_append, shown_append, opened]
      simp
    · rw [opened', opened]
      cases m.textOpen <;> cases new <;> simp

/-- The end of a text block that is open, or is opened to stay empty. -/
theorem finishText_shown (text reason : Bytes) (n : Int) (m : MessageStream) :
    finishText text reason n m = shown m.textOpen (textsOf text) ++
      ((if m.textOpen || !(textsOf text).isEmpty then []
        else [("content_block_start", makeContentBlockStart 0 (textBlock []))]) ++ closing true reason n) := by
  unfold finishText openText
  rw [sendText_textsOf]
  dsimp only
  cases m.textOpen <;> cases (textsOf text) <;> simp

/-- The whole of a stream with text behind `message_start`: an empty text still has a block. -/
def textEvents (texts : List Bytes) (reason : Bytes) (n : Int) : List SseEvent :=
  shown false texts ++ ((if texts.isEmpty then [("content_block_start", makeContentBlockStart 0 (textBlock []))] else []) ++
    closing true reason n)

def callsEvents (calls : List ToolCall) (n : Int) : List SseEvent :=
  (calls.mapIdx callEvents).flatten ++ closing false (.ofAscii "tool_use") n

end MessageStream

open MessageStream

def Server.startEvent (sv : Server) (r : Generated) : SseEvent :=
  ("message_start", makeMessageStart (sv.nextId "msg_") sv.model r.promptTokens)

/-- The three ends of a stream: text, tool calls, or the exception of the tool-call parser. -/
theorem messageEvents_cases (sv : Server) (tools : Bool) (r : Generated) :
    (∃ texts, texts.flatten = r.text sv.tok ∧
      sv.messageEvents tools r = (sv.startEvent r :: textEvents texts (anthropicStopReason r.finishReason) r.ids.length, none) ∧
      (tools = false ∨ parseToolCalls sv.js (r.text sv.tok) = .ok [] ∨
        ((r.text sv.tok).find? fun b => !isBlank b) ≠ some 0x7B)) ∨
    (∃ calls, tools = true ∧ parseToolCalls sv.js (r.text sv.tok) = .ok calls ∧ calls ≠ [] ∧
      ((r.text sv.tok).find? fun b => !isBlank b) = some 0x7B ∧
      sv.messageEvents tools r = (sv.startEvent r :: callsEvents calls r.ids.length, none)) ∨
    (∃ e, tools = true ∧ parseToolCalls sv.js (r.text sv.tok) = .error e ∧
      sv.messageEvents tools r = ([sv.startEvent r], some e)) := by
  rcases run : drain { detok := .new sv.tok, buffering := tools } r.ids with ⟨events, m⟩
  obtain ⟨parts, h, rfl, opened⟩ := drain_shown (ChatStream.streaming_start sv tools false) run
  rw [List.nil_append, List.nil_append] at h
  have h : Streaming sv tools r.quiet.wantLp r.quiet.emitted parts m.toChat := h
  have ended {last : List SseEvent} (ok : m.finishEvents sv.js r.finishReason r.ids.length = .ok last) :
      sv.messageEvents tools r = (sv.startEvent r :: (shown false (parts.map (·.1)) ++ last), none) := by
    unfold Server.messageEvents
    rw [run]
    dsimp only
    rw [ok]
    rfl
  have threw {e : Exn} (thrown : m.finishEvents sv.js r.finishReason r.ids.length = .error e) :
      sv.messageEvents tools r = (sv.startEvent r :: shown false (parts.map (·.1)), some e) := by
    unfold Server.messageEvents
    rw [run]
    dsimp only
    rw [thrown]
    rfl
  have live (texts : List Bytes) (tail : Bytes) (all : texts = parts.map (·.1) ++ textsOf tail) :
      shown false (parts.map (·.1)) ++ finishText tail (anthropicStopReason r.finishReason) r.ids.length
        { m with detok := m.detok.finish.2 } = textEvents texts (anthropicStopReason r.finishReason) r.ids.length := by
    have opened : m.textOpen = !parts.isEmpty := by simpa using opened
    rw [finishText_shown, textEvents, all, shown_append]
    dsimp only
    rw [opened]
    cases parts <;> cases textsOf tail <;> simp
  have joined (tail : Bytes) : (parts.map (·.1) ++ textsOf tail).flatten = parts.flatMap (·.1) ++ tail := by
    rw [List.flatten_append, textsOf_flatten, List.flatMap_def]
  cases buffering : m.buffering with
  | false =>
    refine .inl ⟨parts.map (·.1) ++ textsOf m.detok.finish.1, ?_, ?_, ?_⟩
    · rw [joined, (h.live buffering).1]
      exact h.returned_tail
    · rw [ended (finishEvents_live buffering), live _ _ rfl]
    · cases tools with
      | false => exact .inl rfl
      | true => exact .inr (.inr (h.no_brace buffering rfl))
  | true =>
    obtain ⟨on, rfl, same, -⟩ := h.holds buffering
    have all : m.buffered ++ m.detok.finish.1 = r.text sv.tok := by
      rw [show m.buffered = m.detok.returned from same]
      exact h.returned_tail
    cases found : parseToolCalls sv.js (r.text sv.tok) with
    | error e =>
      have thrown : m.finishEvents sv.js r.finishReason r.ids.length = .error e := by
        unfold finishEvents
        dsimp only
        rw [if_pos buffering, all, found]
        rfl
      exact .inr (.inr ⟨e, on, rfl, by rw [threw thrown]; rfl⟩)
    | ok calls =>
      have parsed : parseToolCalls sv.js (m.buffered ++ m.detok.finish.1) = .ok calls := by rw [all, found]
      by_cases none : calls = []
      · subst none
        refine .inl ⟨textsOf (r.text sv.tok), textsOf_flatten _, ?_, .inr (.inl rfl)⟩
        rw [ended (finishEvents_text buffering parsed), all, live _ _ rfl]
        rfl
      · have brace := h.brace buffering (by
          rw [Generated.quiet_text, found]
          simpa using none)
        refine .inr (.inl ⟨calls, on, rfl, none, brace, ?_⟩)
        have closed : m.textOpen = false := by simpa using opened
        rw [ended (finishEvents_calls buffering none parsed), closed]
        rfl

/-! ### The client follows -/

namespace MessageClient

theorem run_cons (client : MessageClient) (event : Bytes × Json) (events : List (Bytes × Json)) :
    client.run (event :: events) = (client.receive event).bind fun next => next.run events := rfl

theorem run_append (client : MessageClient) (before after : List (Bytes × Json)) :
    client.run (before ++ after) = (client.run before).bind fun next => next.run after :=
  List.foldlM_append ..

/-- A client that has followed some events has followed those before them. -/
theorem run_prefix {client last : MessageClient} {before events : List (Bytes × Json)} (cut : before <+: events)
    (ran : client.run events = some last) : ∃ here, client.run before = some here := by
  obtain ⟨after, rfl⟩ := cut
  rw [run_append] at ran
  obtain ⟨here, begun, -⟩ := Option.bind_eq_some_iff.mp ran
  exact ⟨here, begun⟩

variable {f : Json → Json} {message : Json}

/-- Before the end of a stream with text. -/
def texting (f : Json → Json) (message : Json) (textOpen : Bool) (text : Bytes) : MessageClient :=
  if textOpen then .inside message [] { start := f (textBlock []), text } else .between message []

section
variable (rekeys : Json.Rekeys f)

include rekeys

theorem run_deltas (text : Bytes) (texts : List Bytes) :
    (texting f message true text).run
      ((texts.map fun text => ("content_block_delta", makeTextDelta 0 text)).map (delivered f)) =
      some (texting f message true (text ++ texts.flatten)) := by
  induction texts generalizing text with
  | nil => simp [run]
  | cons next texts ih =>
    have stepped : (texting f message true text).receive (delivered f ("content_block_delta", makeTextDelta 0 next)) =
        some (texting f message true (text ++ next)) := by
      have type := textBlock_type rekeys []
      rw [receive, delivered, readEvent_textDelta rekeys]
      simp [texting, step, type]
    rw [List.map_cons, List.map_cons, run_cons, stepped, Option.bind_some, ih, List.flatten_cons, List.append_assoc]

theorem receive_open :
    receive (.between message []) (delivered f ("content_block_start", makeContentBlockStart 0 (textBlock []))) =
      some (texting f message true []) := by
  rw [receive, delivered, readEvent_blockStart rekeys]
  rfl

theorem run_shown (texts : List Bytes) :
    (texting f message false []).run ((shown false texts).map (delivered f)) =
      some (texting f message (!texts.isEmpty) texts.flatten) := by
  unfold shown
  split
  next none => simp [none, run]
  next some =>
    have opened : (texting f message false []).receive
        (delivered f ("content_block_start", makeContentBlockStart 0 (textBlock []))) = .some (texting f message true []) :=
      receive_open rekeys
    have nonempty : (!texts.isEmpty) = true := by simpa using some
    rw [if_neg (by simp), List.map_append, List.map_singleton, List.singleton_append, run_cons, opened, Option.bind_some,
      run_deltas rekeys, List.nil_append, nonempty]

theorem run_closing (text reason : Bytes) (n : Int) :
    (texting f message true text).run ((closing true reason n).map (delivered f)) =
      some (.ended message [{ start := f (textBlock []), text }] (.str reason) (f .null) (.int n)) := by
  simp only [closing, if_true, List.cons_append, List.nil_append, List.map_cons, List.map_nil, run_cons, receive, delivered,
    readEvent_blockStop rekeys, readEvent_messageDelta rekeys, readEvent_messageStop rekeys, texting, step, Option.bind_some]
  rfl

theorem run_textEvents (texts : List Bytes) (reason : Bytes) (n : Int) :
    run (.between message []) ((textEvents texts reason n).map (delivered f)) =
      some (.ended message [{ start := f (textBlock []), text := texts.flatten }] (.str reason) (f .null) (.int n)) := by
  have begun := @run_shown f message rekeys texts
  rw [textEvents, List.map_append, run_append, show MessageClient.between message [] = texting f message false [] from rfl,
    begun, Option.bind_some, List.map_append, run_append]
  cases texts with
  | nil =>
    have opened := @receive_open f message rekeys
    have here : run (texting f message false []) [delivered f ("content_block_start", makeContentBlockStart 0 (textBlock []))] =
        some (texting f message true []) := by
      rw [run_cons, show (texting f message false []).receive _ = _ from opened]
      rfl
    exact (congrArg (Option.bind · _) here).trans (run_closing rekeys [] reason n)
  | cons text texts => exact run_closing rekeys _ reason n

/-- The block of a call. -/
def callBlock (f : Json → Json) (i : Nat) (call : ToolCall) : Block :=
  { start := f (toolUseBlock i call.name (.object [])), text := call.arguments }

theorem run_calls (blocks : List Block) (calls : List ToolCall) :
    run (.between message blocks) (((calls.mapIdx fun i => callEvents (blocks.length + i)).flatten).map (delivered f)) =
      some (.between message (blocks ++ calls.mapIdx fun i => callBlock f (blocks.length + i))) := by
  induction calls generalizing blocks with
  | nil => simp [run]
  | cons call calls ih =>
    have type := toolUseBlock_type rekeys blocks.length call.name (.object [])
    have first : run (.between message blocks) ((callEvents blocks.length call).map (delivered f)) =
        some (.between message (blocks ++ [callBlock f blocks.length call])) := by
      simp only [callEvents, List.map_cons, List.map_nil, run_cons, receive, delivered, readEvent_blockStart rekeys,
        readEvent_inputDelta rekeys, readEvent_blockStop rekeys, step, Option.bind_some, if_true, type, and_self]
      rfl
    have rest := ih (blocks ++ [callBlock f blocks.length call])
    rw [List.length_append, List.length_singleton] at rest
    rw [List.mapIdx_cons, List.flatten_cons, List.map_append, run_append, Nat.add_zero, first, Option.bind_some,
      List.mapIdx_cons]
    simpa only [Nat.add_assoc, Nat.add_comm 1, List.append_assoc, List.singleton_append, Nat.add_zero] using rest

theorem run_callsEvents (calls : List ToolCall) (n : Int) :
    run (.between message []) ((callsEvents calls n).map (delivered f)) =
      some (.ended message (calls.mapIdx (callBlock f)) (.str (.ofAscii "tool_use")) (f .null) (.int n)) := by
  have begun := @run_calls f message rekeys [] calls
  simp only [List.length_nil, Nat.zero_add, List.nil_append] at begun
  rw [callsEvents, List.map_append, run_append, begun, Option.bind_some]
  simp only [closing, Bool.false_eq_true, if_false, List.nil_append, List.map_cons, List.map_nil, run_cons, receive,
    delivered, readEvent_messageDelta rekeys, readEvent_messageStop rekeys, step, Option.bind_some]
  rfl

end

end MessageClient

end Mlxforge
