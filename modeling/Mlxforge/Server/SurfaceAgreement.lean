import Mlxforge.Server.Admission

/-!
One conversation on the two surfaces: written as an OpenAI body and as an Anthropic body it becomes one request.
-/

namespace Mlxforge

/-! ### What clients say -/

/-- An image as base64 text. -/
structure SentImage where
  mediaType : Bytes
  data : Bytes
  image : Bytes
  decodes : decodeBase64 data = .ok image
  media : (0x2C : UInt8) ∉ mediaType

/-- A tool call: its arguments as the model wrote them, and what they are. -/
structure SentCall (js : JsonLib) where
  id : Bytes
  name : Bytes
  arguments : Bytes
  input : Json
  reads : js.parse arguments = .ok input
  clean : input.clean = true
  named : Utf8.check name = true

inductive SaidBlock (js : JsonLib) where
  | text (text : Bytes)
  | image (image : SentImage)
  | toolUse (call : SentCall js)
  | toolResult (id text : Bytes)

/-- One message of a client: a plain text, or blocks of all kinds in any order. -/
inductive Said (js : JsonLib) where
  | plain (role text : Bytes)
  | blocks (role : Bytes) (blocks : List (SaidBlock js))

/-- A function of a tool. -/
structure ToolSpec where
  name : Json
  description : Option Json
  parameters : Option Json

inductive ToolChoice where
  | auto | none | required
  | tool (name : Bytes)

structure Conversation (js : JsonLib) where
  system : Option Bytes
  said : List (Said js)
  tools : Option (List ToolSpec)
  toolChoice : Option ToolChoice
  stop : Option (List Bytes)

/-! ### As Anthropic writes it -/

namespace SaidBlock

variable {js : JsonLib}

def anthropic : SaidBlock js → Json
  | .text t => .object [("text", .str t), ("type", .text "text")]
  | .image i => .object [("source", .object [("data", .str i.data), ("media_type", .str i.mediaType), ("type", .text "base64")]),
      ("type", .text "image")]
  | .toolUse c => .object [("id", .str c.id), ("input", c.input), ("name", .str c.name), ("type", .text "tool_use")]
  | .toolResult id t => .object [("content", .str t), ("tool_use_id", .str id), ("type", .text "tool_result")]

/-! ### As OpenAI writes it -/

/-- The image in a `data:` URL. -/
def dataUrl (i : SentImage) : Bytes := ascii "data:" ++ i.mediaType ++ ascii ";base64," ++ i.data

/-- Text and images are parts of a message. -/
def part? : SaidBlock js → Option Json
  | .text t => some (.object [("text", .str t), ("type", .text "text")])
  | .image i => some (.object [("image_url", .object [("url", .str (dataUrl i))]), ("type", .text "image_url")])
  | _ => none

/-- A tool result is a message of its own. -/
def result? : SaidBlock js → Option Json
  | .toolResult id t => some (.object [("content", .str t), ("role", .text "tool"), ("tool_call_id", .str id)])
  | _ => none

def callMessage (c : SentCall js) : Json :=
  .object [("content", .null), ("role", .text "assistant"), ("tool_calls", .arr [.object [
    ("function", .object [("arguments", .str c.arguments), ("name", .str c.name)]), ("id", .str c.id), ("type", .text "function")]])]

/-- So is a tool call. -/
def call? : SaidBlock js → Option (SentCall js)
  | .toolUse c => some c
  | _ => none

def text? : SaidBlock js → Bytes
  | .text t => t
  | _ => []

def image? : SaidBlock js → Option Bytes
  | .image i => some i.image
  | _ => none

def resultText? : SaidBlock js → Option Bytes
  | .toolResult _ t => some t
  | _ => none

end SaidBlock

namespace Said

variable {js : JsonLib}

def anthropic : Said js → Json
  | .plain role text => .object [("content", .str text), ("role", .str role)]
  | .blocks role bs => .object [("content", .arr (bs.map SaidBlock.anthropic)), ("role", .str role)]

/-- Results come first, then what is said, then calls. -/
def openAi : Said js → List Json
  | .plain role text => [.object [("content", .str text), ("role", .str role)]]
  | .blocks role bs =>
    bs.filterMap SaidBlock.result? ++
      (if bs.flatMap SaidBlock.text? ≠ [] ∨ bs.filterMap SaidBlock.image? ≠ [] then
        [.object [("content", .arr (bs.filterMap SaidBlock.part?)), ("role", .str role)]] else []) ++
      (bs.filterMap SaidBlock.call?).map SaidBlock.callMessage

end Said

namespace ToolSpec

variable (t : ToolSpec)

def function : Json :=
  .obj (t.description.toList.map (ascii "description", ·) ++ (ascii "name", t.name) ::
    t.parameters.toList.map (ascii "parameters", ·))

def openAi : Json := .object [("function", t.function), ("type", .text "function")]

def anthropic : Json :=
  .object (t.description.toList.map ("description", ·) ++ (t.parameters.toList.map ("input_schema", ·) ++ [("name", t.name)]))

end ToolSpec

namespace ToolChoice

def openAi : ToolChoice → Json
  | .auto => .text "auto"
  | .none => .text "none"
  | .required => .text "required"
  | .tool name => .object [("function", .object [("name", .str name)]), ("type", .text "function")]

def anthropic : ToolChoice → Json
  | .auto => .object [("type", .text "auto")]
  | .none => .object [("type", .text "none")]
  | .required => .object [("type", .text "any")]
  | .tool name => .object [("name", .str name), ("type", .text "tool")]

end ToolChoice

namespace Conversation

variable {js : JsonLib} (c : Conversation js)

def openAiMessages : List Json :=
  (c.system.toList.map fun text => .object [("content", .str text), ("role", .text "system")]) ++ c.said.flatMap Said.openAi

/-- Settings that only OpenAI bodies have. -/
def openAiOnly : List String :=
  ["min_p", "repetition_penalty", "frequency_penalty", "presence_penalty", "logprobs", "top_logprobs", "n", "enable_thinking",
    "chat_template_kwargs"]

/-- Settings that are spelled alike. -/
def shared : List String := ["model", "max_tokens", "temperature", "top_p", "top_k", "seed", "stream"]

/-- The body has the conversation, in fields of any order and beside fields that no parser reads. -/
structure OpenAiBody (body : Json) : Prop where
  object : body.isObject = true
  messages : body.find? "messages" = some (.arr c.openAiMessages)
  tools : body.find? "tools" = c.tools.map fun tools => .arr (tools.map ToolSpec.openAi)
  toolChoice : body.find? "tool_choice" = c.toolChoice.map ToolChoice.openAi
  stop : body.find? "stop" = c.stop.map fun stop => .arr (stop.map .str)
  absent : ∀ key ∈ openAiOnly, body.find? key = none

structure AnthropicBody (body : Json) : Prop where
  object : body.isObject = true
  system : body.find? "system" = c.system.map .str
  messages : body.find? "messages" = some (.arr (c.said.map Said.anthropic))
  tools : body.find? "tools" = c.tools.map fun tools => .arr (tools.map ToolSpec.anthropic)
  toolChoice : body.find? "tool_choice" = c.toolChoice.map ToolChoice.anthropic
  stop : body.find? "stop_sequences" = c.stop.map fun stop => .arr (stop.map .str)

/-- Something is said, and the system prompt is not empty. -/
structure Spoken : Prop where
  system : c.system ≠ some []
  said : c.said ≠ []
  messages : c.openAiMessages ≠ []

end Conversation

/-! ### Images -/

/-- Nothing before the marker ends in its last byte. -/
theorem afterFirst_append {s w t : Bytes} {b : UInt8} (hs : b ∉ s) (hw : b ∉ w) :
    afterFirst (w ++ [b]) (s ++ (w ++ b :: t)) = some t := by
  induction s with
  | nil =>
    have found : w ++ [b] <+: w ++ b :: t := ⟨t, by simp⟩
    obtain ⟨c, rest, same⟩ := List.exists_cons_of_ne_nil (l := w ++ b :: t) (by simp)
    have behind : (w ++ b :: t).drop (w ++ [b]).length = t := by
      rw [show w ++ b :: t = (w ++ [b]) ++ t by simp, List.drop_left]
    rw [List.nil_append, same, afterFirst, ← same, if_pos (List.isPrefixOf_iff_prefix.mpr found), behind]
  | cons c s ih =>
    have later : ¬w ++ [b] <+: (c :: s) ++ (w ++ b :: t) := by
      intro found
      have front : (c :: s) ++ w <+: (c :: s) ++ (w ++ b :: t) := ⟨b :: t, by simp⟩
      have early := List.prefix_of_prefix_length_le found front (by simp)
      rcases List.mem_append.mp (early.subset (by simp : b ∈ w ++ [b])) with member | member
      · exact hs member
      · exact hw member
    rw [List.cons_append, afterFirst, if_neg (by simpa using later)]
    exact ih fun member => hs (.tail _ member)

theorem decodeImageUrl_dataUrl (i : SentImage) : decodeImageUrl (SaidBlock.dataUrl i) = .ok i.image := by
  have parts : SaidBlock.dataUrl i = (ascii "data:" ++ i.mediaType ++ ascii ";") ++ (ascii "base64" ++ 0x2C :: i.data) := by
    simp [SaidBlock.dataUrl, show ascii ";base64," = ascii ";" ++ (ascii "base64" ++ [0x2C]) by decide]
  have found : afterFirst (ascii "base64,") (SaidBlock.dataUrl i) = some i.data := by
    rw [parts, show ascii "base64," = ascii "base64" ++ [0x2C] by decide]
    refine afterFirst_append ?_ (by decide)
    simp only [List.mem_append, not_or]
    exact ⟨⟨by decide, i.media⟩, by decide⟩
  have scheme : (Bytes.ofAscii "data:").isPrefixOf (SaidBlock.dataUrl i) = true := by
    rw [List.isPrefixOf_iff_prefix, SaidBlock.dataUrl, List.append_assoc, List.append_assoc]
    exact List.prefix_append ..
  rw [decodeImageUrl, found]
  dsimp only
  rw [if_pos scheme, i.decodes]

/-! ### Messages -/

namespace Json

@[simp] theorem isObject_object (fields : List (String × Json)) : (object fields).isObject = true := rfl

@[simp] theorem value_object {α : Type} (get : Json → Except Exn α) (key : String) (default : α) (fields : List (String × Json)) :
    (object fields).value get key default =
      match (object fields).find? key with
      | some v => get v
      | none => .ok default := rfl

@[simp] theorem getString_str (s : Bytes) : (str s).getString = .ok s := rfl

@[simp] theorem getString_text (s : String) : (text s).getString = .ok (ascii s) := rfl

end Json

section
variable {js : JsonLib}

theorem parsePart_eq {b : SaidBlock js} {part : Json} (written : b.part? = some part) :
    parsePart part = .ok (b.text?, b.image?.toList) := by
  cases b with
  | text t =>
    obtain rfl := Option.some.inj written
    simp +decide [parsePart, Json.getString]
    rfl
  | image i =>
    obtain rfl := Option.some.inj written
    have some_url : SaidBlock.dataUrl i ≠ [] := by simp +decide [SaidBlock.dataUrl]
    have source : Json.object [("url", .str (SaidBlock.dataUrl i))] = .obj [(ascii "url", .str (SaidBlock.dataUrl i))] := rfl
    have url : (Json.obj [(ascii "url", .str (SaidBlock.dataUrl i))]).value Json.getString "url" [] = .ok (SaidBlock.dataUrl i) := by
      simp [← source]
    simp +decide only [parsePart, Json.isObject_object, Json.value_object, Json.find?_object_cons, Json.getString_text, ok_bind,
      Bool.not_true, if_true, if_false, source, url, if_neg some_url, decodeImageUrl_dataUrl]
    rfl
  | toolUse c => cases written
  | toolResult id t => cases written

theorem parts_eq (bs : List (SaidBlock js)) : ∃ parts, (bs.filterMap SaidBlock.part?).mapM parsePart = .ok parts ∧
    parts.flatMap (·.1) = bs.flatMap SaidBlock.text? ∧ parts.flatMap (·.2) = bs.filterMap SaidBlock.image? := by
  induction bs with
  | nil => exact ⟨[], rfl, rfl, rfl⟩
  | cons b bs ih =>
    obtain ⟨parts, parsed, text, images⟩ := ih
    cases written : b.part? with
    | some part =>
      refine ⟨(b.text?, b.image?.toList) :: parts, ?_, ?_, ?_⟩
      · rw [List.filterMap_cons_some written]
        exact mapM_cons_ok (parsePart_eq written) parsed
      · rw [List.flatMap_cons, List.flatMap_cons, text]
      · rw [List.flatMap_cons, images]
        cases b <;> rfl
    | none =>
      refine ⟨parts, by rw [List.filterMap_cons_none written, parsed], ?_, ?_⟩
      · rw [text]
        cases b with
        | text t => cases written
        | _ => rfl
      · rw [images]
        cases b with
        | image i => cases written
        | _ => rfl

/-- The text that replays a call. -/
def SentCall.replay (c : SentCall js) : Except Exn Bytes := renderToolUse js (SaidBlock.toolUse c).anthropic

theorem SentCall.replay_eq (c : SentCall js) : c.replay = do
    let name ← js.dump (.str c.name)
    let input ← js.dump c.input
    return .ofAscii "\x7b\"name\": " ++ name ++ (.ofAscii ", \"parameters\": " ++ input ++ .ofAscii "\x7d") := by
  simp +decide [SentCall.replay, renderToolUse, SaidBlock.anthropic]

theorem parseMessage_call (c : SentCall js) : parseMessage js (SaidBlock.callMessage c) =
    c.replay.map fun toolCall => ({ role := ascii "assistant", content := [], toolCall }, []) := by
  have arguments : replayArguments js (.str c.arguments) = .ok c.input := by rw [replayArguments, c.reads]
  simp +decide [parseMessage, SaidBlock.callMessage, messageRole, renderAssistantToolCall, Json.atKey, arguments, Json.isNull,
    Option.filter, c.replay_eq]
  cases js.dump (.str c.name) with
  | error e => rfl
  | ok name => cases js.dump c.input <;> rfl

/-- The turn of a tool result. -/
def resultTurn (text : Bytes) : Turn := ({ role := ascii "tool", content := text }, [])

theorem parseMessage_result {b : SaidBlock js} {m : Json} (written : b.result? = some m) :
    ∃ t, b.resultText? = some t ∧ parseMessage js m = .ok (resultTurn t) := by
  cases b with
  | toolResult id t =>
    obtain rfl := Option.some.inj written
    refine ⟨t, rfl, ?_⟩
    simp +decide [parseMessage, messageRole, messageContent, parseContent, resultTurn]
  | _ => cases written

theorem parseMessage_plain (role text : Bytes) : parseMessage js (.object [("content", .str text), ("role", .str role)]) =
    .ok ({ role, content := text }, []) := by
  simp +decide [parseMessage, messageRole, messageContent, parseContent]

/-- What the blocks of a message come to. -/
def collected (bs : List (SaidBlock js)) : BlockTurn where
  results := bs.filterMap SaidBlock.resultText?
  text := bs.flatMap SaidBlock.text?
  toolUses := (bs.filterMap SaidBlock.call?).map fun c => (SaidBlock.toolUse c).anthropic
  images := bs.filterMap SaidBlock.image?

theorem collected_snoc (bs : List (SaidBlock js)) (b : SaidBlock js) : collected (bs ++ [b]) = {
    results := (collected bs).results ++ b.resultText?.toList
    text := (collected bs).text ++ b.text?
    toolUses := (collected bs).toolUses ++ (b.call?.map fun c => (SaidBlock.toolUse c).anthropic).toList
    images := (collected bs).images ++ b.image?.toList } := by
  have one {α : Type} (f : SaidBlock js → Option α) : [b].filterMap f = (f b).toList := by
    cases found : f b <;> simp [found]
  simp only [collected, List.filterMap_append, List.flatMap_append, List.map_append, one, List.flatMap_singleton,
    Option.toList_map]

theorem appendBlock_eq (bs : List (SaidBlock js)) (b : SaidBlock js) :
    appendBlock (collected bs) b.anthropic = .ok (collected (bs ++ [b])) := by
  rw [collected_snoc]
  cases b with
  | text t =>
    simp +decide only [appendBlock, SaidBlock.anthropic, Json.isObject_object, Json.value_object, Json.find?_object_cons,
      Json.getString_text, Json.getString_str, ok_bind, Bool.not_true, if_true, if_false]
    simp [SaidBlock.resultText?, SaidBlock.text?, SaidBlock.call?, SaidBlock.image?]
    rfl
  | image i =>
    have source : Json.object [("data", .str i.data), ("media_type", .str i.mediaType), ("type", .text "base64")] =
        .obj [(ascii "data", .str i.data), (ascii "media_type", .str i.mediaType), (ascii "type", .text "base64")] := rfl
    have kind : (Json.obj [(ascii "data", .str i.data), (ascii "media_type", .str i.mediaType),
        (ascii "type", .text "base64")]).value Json.getString "type" [] = .ok (ascii "base64") := by
      simp +decide [← source]
    have data : (Json.obj [(ascii "data", .str i.data), (ascii "media_type", .str i.mediaType),
        (ascii "type", .text "base64")]).value Json.getString "data" [] = .ok i.data := by
      simp [← source]
    simp +decide only [appendBlock, SaidBlock.anthropic, Json.isObject_object, Json.value_object, Json.find?_object_cons,
      Json.getString_text, ok_bind, Bool.not_true, if_true, if_false, source, kind, data, i.decodes]
    simp [SaidBlock.resultText?, SaidBlock.text?, SaidBlock.call?, SaidBlock.image?]
    rfl
  | toolUse c =>
    simp +decide only [appendBlock, SaidBlock.anthropic, Json.isObject_object, Json.value_object, Json.find?_object_cons,
      Json.getString_text, ok_bind, Bool.not_true, if_true, if_false]
    simp [SaidBlock.resultText?, SaidBlock.text?, SaidBlock.call?, SaidBlock.image?]
    rfl
  | toolResult id t =>
    simp +decide only [appendBlock, SaidBlock.anthropic, Json.isObject_object, Json.value_object, Json.find?_object_cons,
      Json.getString_text, ok_bind, Bool.not_true, if_true, if_false, Option.getD_some, textOf]
    simp [SaidBlock.resultText?, SaidBlock.text?, SaidBlock.call?, SaidBlock.image?]
    rfl

theorem appendBlocks_eq (bs : List (SaidBlock js)) :
    (bs.map SaidBlock.anthropic).foldlM appendBlock {} = .ok (collected bs) := by
  induction bs using List.reverseRecOn with
  | nil => rfl
  | append_singleton bs b ih =>
    rw [List.map_append, List.foldlM_append, ih, ok_bind, List.map_singleton, List.foldlM_cons, appendBlock_eq]
    rfl

theorem results_eq (bs : List (SaidBlock js)) :
    (bs.filterMap SaidBlock.result?).mapM (parseMessage js) = .ok ((bs.filterMap SaidBlock.resultText?).map resultTurn) := by
  induction bs with
  | nil => rfl
  | cons b bs ih =>
    cases written : b.result? with
    | some m =>
      obtain ⟨t, text, parsed⟩ := parseMessage_result written
      rw [List.filterMap_cons_some written, List.filterMap_cons_some text]
      exact mapM_cons_ok parsed ih
    | none =>
      have silent : b.resultText? = none := by
        cases b with
        | toolResult id t => cases written
        | _ => rfl
      rw [List.filterMap_cons_none written, List.filterMap_cons_none silent, ih]

/-- The turn of a tool call. -/
def callTurn (toolCall : Bytes) : Turn := ({ role := ascii "assistant", content := [], toolCall }, [])

theorem calls_eq (cs : List (SentCall js)) : (cs.map SaidBlock.callMessage).mapM (parseMessage js) =
    ((cs.map fun c => (SaidBlock.toolUse c).anthropic).mapM (renderToolUse js)).map (·.map callTurn) := by
  induction cs with
  | nil => rfl
  | cons c cs ih =>
    rw [List.map_cons, List.map_cons, List.mapM_cons, List.mapM_cons, parseMessage_call, ih, SentCall.replay]
    cases renderToolUse js (SaidBlock.toolUse c).anthropic with
    | error e => rfl
    | ok toolCall => cases (cs.map fun c => (SaidBlock.toolUse c).anthropic).mapM (renderToolUse js) <;> rfl

theorem parseMessage_parts (role : Bytes) (bs : List (SaidBlock js)) :
    parseMessage js (.object [("content", .arr (bs.filterMap SaidBlock.part?)), ("role", .str role)]) =
      .ok ({ role, content := bs.flatMap SaidBlock.text? }, bs.filterMap SaidBlock.image?) := by
  obtain ⟨parts, parsed, text, images⟩ := parts_eq bs
  simp +decide [parseMessage, messageRole, messageContent, parseContent, parsed, text, images]

/-- A message is the turns of its messages. -/
theorem appendMessage_eq (m : Said js) : appendMessage js m.anthropic = m.openAi.mapM (parseMessage js) := by
  cases m with
  | plain role text =>
    rw [Said.openAi, List.mapM_cons, List.mapM_nil, parseMessage_plain]
    simp +decide [appendMessage, Said.anthropic, messageRole, messageContent]
  | blocks role bs =>
    have role_read : messageRole (Said.blocks role bs).anthropic = .ok role := by
      simp +decide [messageRole, Said.anthropic]
    have content : messageContent (Said.blocks role bs).anthropic = .ok (.arr (bs.map SaidBlock.anthropic)) := by
      simp +decide [messageContent, Said.anthropic]
    have said : (if bs.flatMap SaidBlock.text? ≠ [] ∨ bs.filterMap SaidBlock.image? ≠ [] then
          [Json.object [("content", .arr (bs.filterMap SaidBlock.part?)), ("role", .str role)]] else []).mapM (parseMessage js) =
        .ok (if bs.flatMap SaidBlock.text? ≠ [] ∨ bs.filterMap SaidBlock.image? ≠ [] then
          [({ role, content := bs.flatMap SaidBlock.text? }, bs.filterMap SaidBlock.image?)] else []) := by
      split_ifs
      · exact mapM_cons_ok (parseMessage_parts role bs) rfl
      · rfl
    rw [appendMessage, role_read, content]
    simp only [ok_bind, appendBlocks_eq]
    rw [Said.openAi, List.mapM_append, List.mapM_append, results_eq, said, calls_eq]
    obtain ⟨calls, rendered⟩ : ∃ calls, (collected bs).toolUses.mapM (renderToolUse js) = calls := ⟨_, rfl⟩
    have given : ((bs.filterMap SaidBlock.call?).map fun c => (SaidBlock.toolUse c).anthropic).mapM (renderToolUse js) = calls :=
      rendered
    rw [rendered, given]
    cases calls <;> rfl

theorem messages_eq (said : List (Said js)) : ((said.map Said.anthropic).mapM (appendMessage js)).map List.flatten =
    (said.flatMap Said.openAi).mapM (parseMessage js) := by
  induction said with
  | nil => rfl
  | cons m said ih =>
    rw [List.map_cons, List.mapM_cons, List.flatMap_cons, List.mapM_append, ← ih, appendMessage_eq]
    cases m.openAi.mapM (parseMessage js) with
    | error e => rfl
    | ok turns => cases (said.map Said.anthropic).mapM (appendMessage js) <;> rfl

variable {c : Conversation js} {a b : Json}

theorem chatTurns_eq (spoken : c.Spoken) (body : c.OpenAiBody a) : chatTurns js a = c.openAiMessages.mapM (parseMessage js) := by
  obtain ⟨m, ms, written⟩ := List.exists_cons_of_ne_nil spoken.messages
  rw [chatTurns, body.messages, written]

theorem systemTurns_eq (spoken : c.Spoken) (body : c.AnthropicBody b) :
    systemTurns b = .ok (c.system.toList.map fun text => ({ role := ascii "system", content := text }, [])) := by
  rw [systemTurns, body.system]
  cases given : c.system with
  | none => rfl
  | some text =>
    have some_text : text ≠ [] := fun none => spoken.system (given.trans (congrArg some none))
    simp [textOf, some_text]

theorem messagesTurns_eq (spoken : c.Spoken) (body : c.AnthropicBody b) :
    messagesTurns js b = c.openAiMessages.mapM (parseMessage js) := by
  obtain ⟨m, ms, said⟩ := List.exists_cons_of_ne_nil spoken.said
  have prompts (prompts : List Bytes) :
      (prompts.map fun text => Json.object [("content", .str text), ("role", .text "system")]).mapM (parseMessage js) =
        .ok (prompts.map fun text => ({ role := ascii "system", content := text }, [])) := by
    rw [List.mapM_map]
    exact mapM_ok fun text _ => parseMessage_plain (ascii "system") text
  rw [messagesTurns, systemTurns_eq spoken body, body.messages, Conversation.openAiMessages, List.mapM_append, prompts, ← messages_eq,
    said]
  simp only [List.map_cons, ok_bind]
  cases (m.anthropic :: ms.map Said.anthropic).mapM (appendMessage js) <;> rfl

theorem SentCall.replay_ok (numbers : ∀ x, Utf8.Valid (js.num x)) (c : SentCall js) : ∃ text, c.replay = .ok text := by
  obtain ⟨name, named, -⟩ := (Json.dump_spec numbers (.str c.name)).1 c.named
  obtain ⟨input, written, -⟩ := (Json.dump_spec numbers c.input).1 c.clean
  simp only [c.replay_eq, JsonLib.dump, named, written, ok_bind]
  exact ⟨_, rfl⟩

/-- No message is refused. -/
theorem Said.parsed (numbers : ∀ x, Utf8.Valid (js.num x)) (said : Said js) {m : Json} (member : m ∈ said.openAi) :
    ∃ turn, parseMessage js m = .ok turn := by
  cases said with
  | plain role text =>
    obtain rfl := List.mem_singleton.mp member
    exact ⟨_, parseMessage_plain role text⟩
  | blocks role bs =>
    rcases List.mem_append.mp member with member | member
    · rcases List.mem_append.mp member with member | member
      · obtain ⟨b, -, written⟩ := List.mem_filterMap.mp member
        obtain ⟨t, -, parsed⟩ := parseMessage_result written
        exact ⟨_, parsed⟩
      · split at member
        · obtain rfl := List.mem_singleton.mp member
          exact ⟨_, parseMessage_parts role bs⟩
        · cases member
    · obtain ⟨c, -, rfl⟩ := List.mem_map.mp member
      obtain ⟨text, replayed⟩ := c.replay_ok numbers
      exact ⟨_, by rw [parseMessage_call, replayed]; rfl⟩

theorem messages_parsed (numbers : ∀ x, Utf8.Valid (js.num x)) (c : Conversation js) : ∃ turns, c.openAiMessages.mapM (parseMessage js) = .ok turns := by
  have each : ∀ m ∈ c.openAiMessages, ∃ turn, parseMessage js m = .ok turn ∧ True := by
    intro m member
    rcases List.mem_append.mp member with prompt | later
    · obtain ⟨text, -, rfl⟩ := List.mem_map.mp prompt
      exact ⟨_, parseMessage_plain (ascii "system") text, trivial⟩
    · obtain ⟨said, -, inside⟩ := List.mem_flatMap.mp later
      obtain ⟨turn, parsed⟩ := said.parsed numbers inside
      exact ⟨turn, parsed, trivial⟩
  obtain ⟨turns, parsed, -⟩ := mapM_forall₂ each
  exact ⟨turns, parsed⟩

/-! ### Settings -/

theorem Json.value_congr {α : Type} {get : Json → Except Exn α} {key : String} {default : α} (object : a.isObject = true)
    (object' : b.isObject = true) (same : a.find? key = b.find? key) : a.value get key default = b.value get key default := by
  rw [Json.value, Json.value, if_pos object, if_pos object', same]

theorem Json.value_absent {α : Type} {get : Json → Except Exn α} {key : String} {default : α} (object : a.isObject = true)
    (absent : a.find? key = none) : a.value get key default = .ok default := by
  rw [Json.value, if_pos object, absent]

theorem givenField_map {α : Type} {key : String} {x : Option α} {f : α → Json} (written : a.find? key = x.map f)
    (some_value : ∀ v, (f v).isNull = false) : givenField a key = x.map f := by
  rw [givenField, written]
  cases x with
  | none => rfl
  | some v => simp [Option.filter, some_value]

theorem toolFunction_eq (t : ToolSpec) : Anthropic.toolFunction t.name t.anthropic = t.function := by
  obtain ⟨name, description, parameters⟩ := t
  cases description <;> cases parameters <;>
    simp +decide [Anthropic.toolFunction, ToolSpec.anthropic, ToolSpec.function, Json.insertField]

theorem toolText_eq (t : ToolSpec) : OpenAi.toolText js t.openAi = Anthropic.toolText js t.anthropic := by
  have wrapped : t.openAi.find? "function" = some t.function := by simp +decide [ToolSpec.openAi]
  have name : t.anthropic.find? "name" = some t.name := by
    obtain ⟨name, description, parameters⟩ := t
    cases description <;> cases parameters <;> simp +decide [ToolSpec.anthropic]
  have named : (t.function.find? "name").isSome = true := by
    obtain ⟨name, description, parameters⟩ := t
    cases description <;> simp +decide [ToolSpec.function, Json.find?]
  have checked : require ((t.function.find? "name").isSome = true) "each tool needs a function 'name'" = .ok () := if_pos named
  rw [OpenAi.toolText, Anthropic.toolText, name, wrapped, Option.getD_some, checked, ok_bind]
  dsimp only
  rw [toolFunction_eq]

theorem parseTools_eq (openAi : c.OpenAiBody a) (anthropic : c.AnthropicBody b) : OpenAi.parseTools js a = Anthropic.parseTools js b := by
  rw [OpenAi.parseTools, Anthropic.parseTools, givenField_map openAi.tools fun _ => rfl, givenField_map anthropic.tools fun _ => rfl]
  cases c.tools with
  | none => rfl
  | some tools =>
    simp only [Option.map_some, List.mapM_map]
    exact congrArg (tools.mapM ·) (funext toolText_eq)

theorem parseToolChoice_eq (openAi : c.OpenAiBody a) (anthropic : c.AnthropicBody b) :
    OpenAi.parseToolChoice a = Anthropic.parseToolChoice b := by
  rw [OpenAi.parseToolChoice, Anthropic.parseToolChoice, givenField_map openAi.toolChoice fun choice => by cases choice <;> rfl,
    givenField_map anthropic.toolChoice fun choice => by cases choice <;> rfl]
  cases c.toolChoice with
  | none => rfl
  | some choice =>
    cases choice with
    | tool name =>
      have type : (Json.object [("name", .str name), ("type", .text "tool")]).value Json.getString "type" (ascii "auto") =
          .ok (ascii "tool") := by
        simp +decide
      change .ok (ascii "required") = (do
        let type ← (Json.object [("name", .str name), ("type", .text "tool")]).value Json.getString "type" (ascii "auto")
        if type = ascii "none" then return ascii "none"
        else if type = ascii "any" ∨ type = ascii "tool" then return ascii "required"
        else return ascii "auto")
      rw [type]
      decide
    | _ => decide

theorem parseStop_eq (openAi : c.OpenAiBody a) (anthropic : c.AnthropicBody b) : OpenAi.parseStop a = Anthropic.parseStop b := by
  rw [OpenAi.parseStop, Anthropic.parseStop, givenField_map openAi.stop fun _ => rfl, anthropic.stop]
  cases c.stop <;> rfl

/-- The settings that both bodies have are the same. -/
structure SameSettings (a b : Json) : Prop where
  shared : ∀ key ∈ Conversation.shared, a.find? key = b.find? key
  maxTokens : (a.find? "max_tokens").isSome = true

theorem parseParams_eq (openAi : c.OpenAiBody a) (anthropic : c.AnthropicBody b) (same : SameSettings a b) :
    OpenAi.parseParams a = Anthropic.parseParams b := by
  have shared {α : Type} (get : Json → Except Exn α) (key : String) (default : α) (listed : key ∈ Conversation.shared) :
      a.value get key default = b.value get key default :=
    Json.value_congr openAi.object anthropic.object (same.shared key listed)
  have unset {α : Type} (get : Json → Except Exn α) (key : String) (default : α) (listed : key ∈ Conversation.openAiOnly) :
      a.value get key default = .ok default := Json.value_absent openAi.object (openAi.absent key listed)
  have seed : seedOf a = seedOf b := by
    rw [seedOf, seedOf, givenField, givenField, same.shared "seed" (by decide)]
  have minP : require ((0 : Rat) ≤ 0 ∧ (0 : Rat) ≤ 1) "'min_p' must be in [0, 1]" = .ok () := if_pos (by norm_num)
  have repetition : require ((0 : Rat) < 1) "'repetition_penalty' must be > 0" = .ok () := if_pos one_pos
  have frequency : require ((-2 : Rat) ≤ 0 ∧ (0 : Rat) ≤ 2) "'frequency_penalty' must be in [-2, 2]" = .ok () := if_pos (by norm_num)
  have presence : require ((-2 : Rat) ≤ 0 ∧ (0 : Rat) ≤ 2) "'presence_penalty' must be in [-2, 2]" = .ok () := if_pos (by norm_num)
  rw [OpenAi.parseParams, Anthropic.parseParams, shared Json.getFloat "temperature" 1 (by decide)]
  refine bind_congr fun temperature => bind_congr fun _ => ?_
  rw [shared Json.getFloat "top_p" 1 (by decide)]
  refine bind_congr fun topP => bind_congr fun _ => ?_
  rw [shared Json.getInt32 "top_k" 0 (by decide)]
  refine bind_congr fun topK => ?_
  rw [unset Json.getFloat "min_p" 0 (by decide), unset Json.getFloat "repetition_penalty" 1 (by decide),
    unset Json.getFloat "frequency_penalty" 0 (by decide), unset Json.getFloat "presence_penalty" 0 (by decide), seed]
  simp only [ok_bind, minP, repetition, frequency, presence]

theorem parseMaxTokens_eq (openAi : c.OpenAiBody a) (same : SameSettings a b) :
    (do
      let maxTokens ← a.value Json.getInt32 "max_tokens" 128
      require (0 < maxTokens) "'max_tokens' must be positive"
      return maxTokens) = Anthropic.parseMaxTokens b := by
  obtain ⟨v, given⟩ := Option.isSome_iff_exists.mp same.maxTokens
  rw [Anthropic.parseMaxTokens, ← same.shared "max_tokens" (by decide), Json.value, if_pos openAi.object, given]

/-- One conversation becomes one request, or is refused with one exception. -/
theorem parse_eq (numbers : ∀ x, Utf8.Valid (js.num x)) (spoken : c.Spoken) (openAi : c.OpenAiBody a) (anthropic : c.AnthropicBody b)
    (same : SameSettings a b) : parseChatRequest js a = parseMessagesRequest js b := by
  obtain ⟨turns, parsed⟩ := messages_parsed numbers c
  have shared {α : Type} (get : Json → Except Exn α) (key : String) (default : α) (listed : key ∈ Conversation.shared) :
      a.value get key default = b.value get key default :=
    Json.value_congr openAi.object anthropic.object (same.shared key listed)
  have unset {α : Type} (get : Json → Except Exn α) (key : String) (default : α) (listed : key ∈ Conversation.openAiOnly) :
      a.value get key default = .ok default := Json.value_absent openAi.object (openAi.absent key listed)
  have topLogprobs : require ((0 : Int) ≤ 0 ∧ (0 : Int) ≤ 20) "'top_logprobs' must be in [0, 20]" = .ok () := if_pos (by decide)
  have thinking : OpenAi.parseEnableThinking a = .ok true := by
    rw [OpenAi.parseEnableThinking, unset Json.getBool "enable_thinking" true (by decide), ok_bind,
      openAi.absent "chat_template_kwargs" (by decide)]
    rfl
  rw [parseChatRequest, chatTurns_eq spoken openAi, parsed, ok_bind, OpenAi.parseCommon, parseMessagesRequest,
    shared Json.getString "model" [] (by decide)]
  refine bind_congr fun model => ?_
  rw [← parseMaxTokens_eq openAi same, messagesTurns_eq spoken anthropic, parsed, ← parseParams_eq openAi anthropic same,
    ← parseStop_eq openAi anthropic, ← parseTools_eq openAi anthropic, ← parseToolChoice_eq openAi anthropic,
    ← shared Json.getBool "stream" false (by decide), unset Json.getBool "logprobs" false (by decide),
    unset Json.getInt32 "top_logprobs" 0 (by decide), unset Json.getInt32 "n" 1 (by decide), thinking]
  simp only [ok_bind, topLogprobs, bind_assoc, pure_bind]
  rfl

end

/-! ### Outcomes -/

/-- The same request, or errors of one status and message. -/
inductive Outcome.Matches : Outcome → Outcome → Prop where
  | queued (req : Request) (stream : Bool) : Matches (.queued req stream) (.queued req stream)
  | failed {f g : Failure} (status : f.status = g.status) (message : f.message = g.message) : Matches (.failed f) (.failed g)

namespace HttpServer

variable (sv : HttpServer) {s : Scheduler} {id : Nat}

theorem fail_matches (status : Nat) (message type code : Bytes) :
    (Outcome.failed (Route.chatCompletions.fail status message type code)).Matches
      (.failed (Route.messages.fail status message type code)) := .failed rfl rfl

theorem caught_matches (e : Exn) :
    Option.Rel Outcome.Matches (sv.caught .chatCompletions e) (sv.caught .messages e) := by
  unfold caught
  split
  · exact .none
  · exact .some (.failed rfl rfl)

theorem caught_matches_pair (e : Exn) (s : Scheduler) : Option.Rel (fun x y => x.1.Matches y.1 ∧ x.2 = y.2)
    ((sv.caught .chatCompletions e).map fun outcome => (outcome, s)) ((sv.caught .messages e).map fun outcome => (outcome, s)) := by
  have caught := sv.caught_matches e
  generalize sv.caught .chatCompletions e = x at caught ⊢
  generalize sv.caught .messages e = y at caught ⊢
  cases caught with
  | none => exact .none
  | some matched => exact .some ⟨matched, rfl⟩

theorem submitRequest_matches (cr : ParsedRequest) (s : Scheduler) (id : Nat) :
    Option.Rel (fun x y => x.1.Matches y.1 ∧ x.2 = y.2) (sv.submitRequest .chatCompletions cr s id)
      (sv.submitRequest .messages cr s id) := by
  unfold submitRequest
  cases sv.fe.submitRequest cr.toApiRequest with
  | none => exact .none
  | some made =>
    rcases made with (e | ⟨status, message, type, code⟩) | req
    · have caught := sv.caught_matches_pair e s
      rw [Option.map_eq_bind, Option.map_eq_bind] at caught
      exact caught
    · exact .some ⟨fail_matches .., rfl⟩
    · simp only [Option.bind_eq_bind, Option.bind_some]
      refine .some ⟨?_, rfl⟩
      split
      · exact .queued req cr.stream
      · exact fail_matches ..

/-- One conversation on the two routes: the handlers queue the same request, or answer with the same status and message, and
leave the same queue. -/
theorem surfaces_match (numbers : ∀ x, Utf8.Valid (sv.js.num x)) {c : Conversation sv.js} (spoken : c.Spoken)
    {openAiText anthropicText : Bytes} {a b : Json} (read : sv.js.parse openAiText = .ok a) (read' : sv.js.parse anthropicText = .ok b)
    (openAi : c.OpenAiBody a) (anthropic : c.AnthropicBody b) (same : SameSettings a b) (ready : Bool) (s : Scheduler) (id : Nat) :
    Option.Rel (fun x y => x.1.Matches y.1 ∧ x.2 = y.2) (sv.handle ready .chatCompletions openAiText s id)
      (sv.handle ready .messages anthropicText s id) := by
  have parsed : Route.chatCompletions.parse sv.js a = Route.messages.parse sv.js b :=
    parse_eq numbers spoken openAi anthropic same
  unfold handle
  split
  · exact .some ⟨fail_matches .., rfl⟩
  · rw [read, read', ok_bind, ok_bind, ← parsed]
    cases Route.chatCompletions.parse sv.js a with
    | error e => exact sv.caught_matches_pair e s
    | ok cr => exact sv.submitRequest_matches cr s id

end HttpServer

end Mlxforge
