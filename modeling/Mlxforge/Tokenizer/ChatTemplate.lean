import Mlxforge.Tokenizer.EncodeReturns

/-!
The prompt of a request: the chat templates, and the encoding with its begin-of-text id.
-/

namespace Mlxforge

/-- A role or a marker of the templates. -/
abbrev ascii (s : String) : Bytes := .ofAscii s

/-- What stands ahead of the tool schemas in the first user turn. -/
def toolPreamble : Bytes :=
  ascii ("Given the following functions, please respond with a JSON for a function call " ++
    "with its proper arguments that best answers the given prompt.\n\n" ++
    "Respond in the format \x7b\"name\": function name, \"parameters\": dictionary of " ++
    "argument name and its value\x7d. Do not use variables.\n\n")

def llama3Header (role : Bytes) : Bytes := ascii "<|start_header_id|>" ++ role ++ ascii "<|end_header_id|>\n\n"

/-- The content of the first system message that has one, and the other messages. -/
def splitSystem : Bytes → List Message → Bytes × List Message
  | sysContent, [] => (sysContent, [])
  | sysContent, m :: rest =>
    if m.role = ascii "system" ∧ sysContent = [] then splitSystem m.content rest
    else
      let (sysContent, rest) := splitSystem sysContent rest
      (sysContent, m :: rest)

/-- The turns after the system block; the tool schemas go into the first user turn. -/
def llama3Turns (tools : List Bytes) : (toolsInjected : Bool) → List Message → Bytes
  | _, [] => []
  | injected, m :: rest =>
    if m.role = ascii "tool" then
      llama3Header (ascii "ipython") ++ m.content ++ ascii "<|eot_id|>" ++ llama3Turns tools injected rest
    else if m.role = ascii "assistant" ∧ m.toolCall ≠ [] then
      llama3Header (ascii "assistant") ++ m.toolCall ++ ascii "<|eot_id|>" ++ llama3Turns tools injected rest
    else
      let inject := decide (m.role = ascii "user") && !tools.isEmpty && !injected
      llama3Header m.role ++ (if inject then toolPreamble ++ tools.flatMap (· ++ ascii "\n\n") else []) ++ m.content ++
        ascii "<|eot_id|>" ++ llama3Turns tools (injected || inject) rest

def renderLlama3 (messages : List Message) (addGenerationPrompt : Bool) (date : Bytes) (tools : List Bytes) : Bytes :=
  let (sysContent, rest) := splitSystem [] messages
  llama3Header (ascii "system") ++ ascii "Cutting Knowledge Date: December 2023\nToday Date: " ++ date ++ ascii "\n\n" ++
    sysContent ++ ascii "<|eot_id|>" ++ llama3Turns tools false rest ++
    (if addGenerationPrompt then llama3Header (ascii "assistant") else [])

/-- One run of image placeholders for each image of the turn. -/
def visionBlocks (m : Message) : Bytes :=
  m.imageTokenCounts.flatMap fun count =>
    ascii "<|vision_start|>" ++ (List.replicate count.toNat (ascii "<|image_pad|>")).flatten ++ ascii "<|vision_end|>"

/-- The turns after the system one; consecutive tool results share a user turn. -/
def qwen3Turns : (afterTool : Bool) → List Message → Bytes
  | _, [] => []
  | afterTool, m :: rest =>
    if m.role = ascii "tool" then
      let lastTool := rest.head?.all fun next => decide (next.role ≠ ascii "tool")
      (if afterTool then [] else ascii "<|im_start|>user") ++ ascii "\n<tool_response>\n" ++ m.content ++
        ascii "\n</tool_response>" ++ (if lastTool then ascii "<|im_end|>\n" else []) ++ qwen3Turns true rest
    else if m.role = ascii "assistant" then
      ascii "<|im_start|>assistant\n" ++ m.content ++
        (if m.toolCall ≠ [] then ascii "\n<tool_call>\n" ++ m.toolCall ++ ascii "\n</tool_call>" else []) ++
        ascii "<|im_end|>\n" ++ qwen3Turns false rest
    else
      ascii "<|im_start|>" ++ m.role ++ ascii "\n" ++ visionBlocks m ++ m.content ++ ascii "<|im_end|>\n" ++
        qwen3Turns false rest

/-- The leading system turn: the caller's, or the tool listing with it. -/
def qwen3System (system : Option Bytes) (tools : List Bytes) : Bytes :=
  if !tools.isEmpty then
    ascii "<|im_start|>system\n" ++ (match system with | some content => content ++ ascii "\n\n" | none => []) ++
      ascii ("# Tools\n\nYou may call one or more functions to assist with the user query.\n\n" ++
        "You are provided with function signatures within <tools></tools> XML tags:\n<tools>") ++
      tools.flatMap (ascii "\n" ++ ·) ++
      ascii ("\n</tools>\n\nFor each function call, return a json object with function name and " ++
        "arguments within <tool_call></tool_call> XML tags:\n<tool_call>\n" ++
        "\x7b\"name\": <function-name>, \"arguments\": <args-json-object>\x7d\n</tool_call><|im_end|>\n")
  else match system with
    | some content => ascii "<|im_start|>system\n" ++ content ++ ascii "<|im_end|>\n"
    | none => []

def renderQwen3 (messages : List Message) (addGenerationPrompt enableThinking : Bool) (tools : List Bytes)
    (openThink : Bool) : Bytes :=
  let haveSystem := messages.head?.any fun m => decide (m.role = ascii "system")
  let system := if haveSystem then messages.head?.map Message.content else none
  qwen3System system tools ++ qwen3Turns false (if haveSystem then messages.tail else messages) ++
    (if addGenerationPrompt then
      ascii "<|im_start|>assistant\n" ++
        (if !enableThinking then ascii "<think>\n\n</think>\n\n" else if openThink then ascii "<think>\n" else [])
    else [])

/-- `date` is the current one where the caller gives none. -/
def renderChatTemplate (messages : List Message) (addGenerationPrompt : Bool) (date : Bytes) (fmt : ChatFormat)
    (tools : List Bytes) (enableThinking : Bool) : Bytes :=
  match fmt with
  | .qwen3 => renderQwen3 messages addGenerationPrompt enableThinking tools false
  | .qwen35 => renderQwen3 messages addGenerationPrompt enableThinking tools true
  | .llama3 => renderLlama3 messages addGenerationPrompt date tools

/-- A prompt that asks for an answer is not empty. -/
theorem renderChatTemplate_ne_nil (messages : List Message) (date : Bytes) (fmt : ChatFormat) (tools : List Bytes)
    (enableThinking : Bool) : renderChatTemplate messages true date fmt tools enableThinking ≠ [] := by
  have header : ascii "<|im_start|>assistant\n" ≠ [] := by decide
  have opening : llama3Header (ascii "assistant") ≠ [] := by decide
  cases fmt with
  | llama3 => simp [renderChatTemplate, renderLlama3, opening]
  | qwen3 => simp [renderChatTemplate, renderQwen3, header]
  | qwen35 => simp [renderChatTemplate, renderQwen3, header]

/-- No text, no tokens. -/
theorem EncoderBackend.encode_nil (impl : EncoderBackend) (u : UnicodeTables) : impl.encode u [] = some [] := by
  cases impl with
  | bpe t =>
    change t.encodeLoop u [] [] = some []
    simp [BpeTokenizer.encodeLoop, BpeTokenizer.encodePlain, BpeTokenizer.pieces, decodeUtf8]
  | spm t =>
    change t.literalTable.scan t.encodePlain [] [] = some []
    have merged : t.mergeLoop [] = [] := by
      rw [SpmBpeTokenizer.mergeLoop]
      simp [SpmBpeTokenizer.bestRank]
    rw [LiteralTable.scan, SpmBpeTokenizer.encodePlain]
    simp [SpmBpeTokenizer.normalized, SpmBpeTokenizer.utf8Chars, merged]

namespace Tokenizer

variable (tok : Tokenizer) (u : UnicodeTables)

/-- The ids of a text, none where the encoder does not return. -/
def encode (text : Bytes) : Option (List Int) :=
  (tok.impl.encode u text).map fun ids => if 0 ≤ tok.bosId then tok.bosId :: ids else ids

def applyChatTemplate (messages : List Message) (date : Bytes) (tools : List Bytes := []) (enableThinking : Bool := true) :
    Option (List Int) :=
  tok.encode u (renderChatTemplate messages true date tok.chatFormat tools enableThinking)

/-- The tokenizer puts its begin-of-text id first, or the text has a token of its own. -/
def Worded (text : Bytes) : Prop := 0 ≤ tok.bosId ∨ tok.impl.encode u text ≠ some []

theorem encode_nil : tok.encode u [] = some (if 0 ≤ tok.bosId then [tok.bosId] else []) := by
  rw [encode, EncoderBackend.encode_nil]
  rfl

variable {tok u}

theorem encode_ne_nil_iff {text : Bytes} {ids : List Int} (encoded : tok.encode u text = some ids) :
    ids ≠ [] ↔ tok.Worded u text := by
  obtain ⟨own, ran, rfl⟩ := Option.map_eq_some_iff.mp encoded
  unfold Worded
  by_cases bos : 0 ≤ tok.bosId
  · simp [bos]
  · simp [bos, ran]

end Tokenizer

end Mlxforge
