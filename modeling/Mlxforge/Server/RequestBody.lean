import Mlxforge.Server.ImageOrder

/-!
Request bodies of the completion routes: the settings beside the messages, with their defaults and checks, and the tools
as the prompt shows them.
-/

namespace Mlxforge

/-! ### Numbers -/

/-- To nearest, ties to even. -/
def roundHalfEven (q : Rat) : Int :=
  let rest := q - ⌊q⌋
  if rest < 1 / 2 then ⌊q⌋
  else if 1 / 2 < rest then ⌊q⌋ + 1
  else if ⌊q⌋ % 2 = 0 then ⌊q⌋ else ⌊q⌋ + 1

/-- The distance between two floats next to `x`. -/
def floatUlp (x : Rat) : Rat := 2 ^ max (Int.log 2 |x| - 23) (-149)

def maxFloat : Rat := (2 ^ 24 - 1) * 2 ^ 104

/-- The float a number is converted to. -/
def toFloat (x : Rat) : Except Exn Rat :=
  let y := roundHalfEven (x / floatUlp x) * floatUlp x
  if |y| ≤ maxFloat then .ok y else .error .undefined

def truncate (x : Rat) : Int := if 0 ≤ x then ⌊x⌋ else ⌈x⌉

namespace Json

/-- `get<float>`. -/
def getFloat : Json → Except Exn Rat
  | .int i => toFloat i
  | .float x => toFloat x
  | .bool b => .ok b.toNat
  | _ => .error .type

/-- `get<int>` in 32 bits: an integer wraps around. -/
def getInt32 : Json → Except Exn Int
  | .int i => .ok (i.bmod (2 ^ 32))
  | .float x => if -2 ^ 31 ≤ truncate x ∧ truncate x < 2 ^ 31 then .ok (truncate x) else .error .undefined
  | .bool b => .ok b.toInt
  | _ => .error .type

/-- `get<uint64_t>`, which does not take booleans. -/
def getUInt64 : Json → Except Exn UInt64
  | .int i => .ok (.ofInt i)
  | .float x => if 0 ≤ truncate x ∧ truncate x < 2 ^ 64 then .ok (.ofInt (truncate x)) else .error .undefined
  | _ => .error .type

/-! ### Equal values -/

mutual

def same : Json → Json → Bool
  | .null, .null => true
  | .bool a, .bool b => a == b
  | .int a, .int b => a == b
  | .float a, .float b => a == b
  | .str a, .str b => a == b
  | .arr xs, .arr ys => sameItems xs ys
  | .obj xs, .obj ys => sameFields xs ys
  | _, _ => false

def sameItems : List Json → List Json → Bool
  | [], [] => true
  | x :: xs, y :: ys => same x y && sameItems xs ys
  | _, _ => false

def sameFields : List (Bytes × Json) → List (Bytes × Json) → Bool
  | [], [] => true
  | (k, x) :: xs, (l, y) :: ys => k == l && same x y && sameFields xs ys
  | _, _ => false

end

mutual

theorem same_iff (a b : Json) : same a b = true ↔ a = b := by
  cases a with
  | arr xs => cases b with
    | arr ys => simp only [same, sameItems_iff xs ys, arr.injEq]
    | _ => simp [same]
  | obj xs => cases b with
    | obj ys => simp only [same, sameFields_iff xs ys, obj.injEq]
    | _ => simp [same]
  | _ => cases b <;> simp [same]

theorem sameItems_iff (xs ys : List Json) : sameItems xs ys = true ↔ xs = ys := by
  cases xs with
  | nil => cases ys <;> simp [sameItems]
  | cons x xs => cases ys with
    | nil => simp [sameItems]
    | cons y ys => simp only [sameItems, Bool.and_eq_true, same_iff x y, sameItems_iff xs ys, List.cons.injEq]

theorem sameFields_iff (xs ys : List (Bytes × Json)) : sameFields xs ys = true ↔ xs = ys := by
  cases xs with
  | nil => cases ys <;> simp [sameFields]
  | cons f xs => cases ys with
    | nil => simp [sameFields]
    | cons g ys =>
      obtain ⟨k, x⟩ := f
      obtain ⟨l, y⟩ := g
      simp only [sameFields, Bool.and_eq_true, beq_iff_eq, same_iff x y, sameFields_iff xs ys, List.cons.injEq, Prod.mk.injEq]

end

instance : DecidableEq Json := fun a b => decidable_of_iff (same a b = true) (same_iff a b)

/-! ### Pretty-printed text -/

def spaces (n : Nat) : Bytes := .replicate n 0x20

/-- What stands between brackets, each item on a line of its own. -/
def block (opening closing : UInt8) (indent : Nat) (lines : List Bytes) : Bytes :=
  if lines.isEmpty then [opening, closing]
  else opening :: 0x0A :: ((lines.map (spaces (indent + 4) ++ ·)).intersperse [0x2C, 0x0A]).flatten ++
    0x0A :: (spaces indent ++ [closing])

section
variable (num : Rat → Bytes)

mutual

/-- `dump(4)` at an indentation. -/
def dumpIndented (indent : Nat) : Json → Except Exn Bytes
  | .arr items => do
    let lines ← indentedItems (indent + 4) items
    return block 0x5B 0x5D indent lines
  | .obj fields => do
    let lines ← indentedFields (indent + 4) fields
    return block 0x7B 0x7D indent lines
  | j => dump num j

def indentedItems (indent : Nat) : List Json → Except Exn (List Bytes)
  | [] => .ok []
  | j :: rest => do
    let text ← dumpIndented indent j
    return text :: (← indentedItems indent rest)

def indentedFields (indent : Nat) : List (Bytes × Json) → Except Exn (List Bytes)
  | [] => .ok []
  | (key, j) :: rest => do
    let key ← dumpString key
    let text ← dumpIndented indent j
    return (key ++ 0x3A :: 0x20 :: text) :: (← indentedFields indent rest)

end

end

end Json

/-! ### Settings -/

/-- What `ChatRequest` holds in full. -/
structure ParsedRequest extends ApiRequest where
  stream : Bool := false
  n : Int := 1
  stop : List Bytes := []

/-- A check of the parsers. -/
def require (p : Prop) [Decidable p] (what : String) : Except Exn Unit := if p then .ok () else .error (.runtime what)

/-- A field that is null counts as left out. -/
def givenField (body : Json) (key : String) : Option Json := (body.find? key).filter fun v => !v.isNull

section
variable (js : JsonLib)

def seedOf (body : Json) : Except Exn UInt64 :=
  match givenField body "seed" with
  | some v => v.getUInt64
  | none => .ok 0

namespace OpenAi

def parseStop (body : Json) : Except Exn (List Bytes) :=
  match givenField body "stop" with
  | none => .ok []
  | some (.str s) => .ok [s]
  | some (.arr items) => items.mapM Json.getString
  | some _ => .error (.runtime "'stop' must be a string or array of strings")

/-- The function of a tool; a schema without the wrapper is taken too. -/
def toolText (tool : Json) : Except Exn Bytes := do
  let fn := (tool.find? "function").getD tool
  require ((fn.find? "name").isSome) "each tool needs a function 'name'"
  fn.dumpIndented js.num 0

def parseTools (body : Json) : Except Exn (List Bytes) :=
  match givenField body "tools" with
  | none => .ok []
  | some (.arr tools) => tools.mapM (toolText js)
  | some _ => .error (.runtime "'tools' must be an array")

def parseToolChoice (body : Json) : Except Exn Bytes :=
  match givenField body "tool_choice" with
  | none => .ok (ascii "auto")
  | some (.str s) => .ok s
  | some (.obj _) => .ok (ascii "required")
  | some _ => .error (.runtime "'tool_choice' must be a string or object")

def parseEnableThinking (body : Json) : Except Exn Bool := do
  let enableThinking ← body.value Json.getBool "enable_thinking" true
  match body.find? "chat_template_kwargs" with
  | some (.obj fields) => (Json.obj fields).value Json.getBool "enable_thinking" enableThinking
  | _ => return enableThinking

def parseParams (body : Json) : Except Exn SamplingParams := do
  let temperature ← body.value Json.getFloat "temperature" 1
  require (0 ≤ temperature) "'temperature' must be >= 0"
  let topP ← body.value Json.getFloat "top_p" 1
  require (0 < topP ∧ topP ≤ 1) "'top_p' must be in (0, 1]"
  let topK ← body.value Json.getInt32 "top_k" 0
  let minP ← body.value Json.getFloat "min_p" 0
  require (0 ≤ minP ∧ minP ≤ 1) "'min_p' must be in [0, 1]"
  let repetitionPenalty ← body.value Json.getFloat "repetition_penalty" 1
  require (0 < repetitionPenalty) "'repetition_penalty' must be > 0"
  let frequencyPenalty ← body.value Json.getFloat "frequency_penalty" 0
  let presencePenalty ← body.value Json.getFloat "presence_penalty" 0
  require (-2 ≤ frequencyPenalty ∧ frequencyPenalty ≤ 2) "'frequency_penalty' must be in [-2, 2]"
  require (-2 ≤ presencePenalty ∧ presencePenalty ≤ 2) "'presence_penalty' must be in [-2, 2]"
  let seed ← seedOf body
  return { temperature, topK, topP, minP, repetitionPenalty, frequencyPenalty, presencePenalty, seed }

def parseCommon (body : Json) (r : ParsedRequest) : Except Exn ParsedRequest := do
  let model ← body.value Json.getString "model" []
  let maxTokens ← body.value Json.getInt32 "max_tokens" 128
  require (0 < maxTokens) "'max_tokens' must be positive"
  let params ← parseParams body
  let logprobs ← body.value Json.getBool "logprobs" false
  let topLogprobs ← body.value Json.getInt32 "top_logprobs" 0
  require (0 ≤ topLogprobs ∧ topLogprobs ≤ 20) "'top_logprobs' must be in [0, 20]"
  let stream ← body.value Json.getBool "stream" false
  let n ← body.value Json.getInt32 "n" 1
  let stop ← parseStop body
  let tools ← parseTools js body
  let toolChoice ← parseToolChoice body
  let enableThinking ← parseEnableThinking body
  return { r with model, maxTokens, params, logprobs, topLogprobs, stream, n, stop, tools, toolChoice, enableThinking }

end OpenAi

namespace Anthropic

/-- The function of a tool, under the names of the chat template. -/
def toolFunction (name : Json) (tool : Json) : Json :=
  let put (key source : String) (fields : List (Bytes × Json)) := match tool.find? source with
    | some v => Json.insertField (ascii key) v fields
    | none => fields
  .obj (put "parameters" "input_schema" (put "description" "description" [(ascii "name", name)]))

def toolText (tool : Json) : Except Exn Bytes :=
  match tool.find? "name" with
  | none => .error (.runtime "each tool needs a 'name'")
  | some name => (toolFunction name tool).dumpIndented js.num 0

def parseTools (body : Json) : Except Exn (List Bytes) :=
  match givenField body "tools" with
  | none => .ok []
  | some (.arr tools) => tools.mapM (toolText js)
  | some _ => .error (.runtime "'tools' must be an array")

def parseToolChoice (body : Json) : Except Exn Bytes :=
  match givenField body "tool_choice" with
  | none => .ok (ascii "auto")
  | some (.obj fields) => do
    let type ← (Json.obj fields).value Json.getString "type" (ascii "auto")
    if type = ascii "none" then return ascii "none"
    else if type = ascii "any" ∨ type = ascii "tool" then return ascii "required"
    else return ascii "auto"
  | some _ => .error (.runtime "'tool_choice' must be an object")

def parseStop (body : Json) : Except Exn (List Bytes) :=
  match body.find? "stop_sequences" with
  | some (.arr items) => items.mapM Json.getString
  | _ => .ok []

/-- `max_tokens`, which has no default here. -/
def parseMaxTokens (body : Json) : Except Exn Int := do
  let maxTokens ← (match body.find? "max_tokens" with
    | some v => v.getInt32
    | none => .error (.runtime "'max_tokens' is required"))
  require (0 < maxTokens) "'max_tokens' must be positive"
  return maxTokens

def parseParams (body : Json) : Except Exn SamplingParams := do
  let temperature ← body.value Json.getFloat "temperature" 1
  require (0 ≤ temperature) "'temperature' must be >= 0"
  let topP ← body.value Json.getFloat "top_p" 1
  require (0 < topP ∧ topP ≤ 1) "'top_p' must be in (0, 1]"
  let topK ← body.value Json.getInt32 "top_k" 0
  let seed ← seedOf body
  return { temperature, topP, topK, seed }

end Anthropic

/-! ### Requests -/

def ParsedRequest.ofTurns (turns : List Turn) : ParsedRequest where
  messages := turns.map (·.1)
  messageImages := turns.map (·.2)

def parseChatRequest (body : Json) : Except Exn ParsedRequest := do
  let turns ← chatTurns js body
  OpenAi.parseCommon js body (.ofTurns turns)

def parseCompletionRequest (body : Json) : Except Exn ParsedRequest :=
  match body.find? "prompt" with
  | some (.str prompt) => OpenAi.parseCommon js body { messages := [{ role := ascii "user", content := prompt }], isChat := false }
  | _ => .error (.runtime "'prompt' must be a string")

def parseMessagesRequest (body : Json) : Except Exn ParsedRequest := do
  let model ← body.value Json.getString "model" []
  let maxTokens ← Anthropic.parseMaxTokens body
  let turns ← messagesTurns js body
  let params ← Anthropic.parseParams body
  let stream ← body.value Json.getBool "stream" false
  let stop ← Anthropic.parseStop body
  let tools ← Anthropic.parseTools js body
  let toolChoice ← Anthropic.parseToolChoice body
  return { ParsedRequest.ofTurns turns with model, maxTokens, params, stream, stop, tools, toolChoice }

end

end Mlxforge
