import Mlxforge.Server.Base64
import Mlxforge.Server.ToolCallText

/-!
The message lists of the two HTTP surfaces. Each message comes with the decoded images attached to it, in the order of
its parts.
-/

namespace Mlxforge

/-- A message and the images attached to it. -/
abbrev Turn := Message × List Bytes

def decodeBase64 (data : Bytes) : Except Exn Bytes := (base64Decode data).mapError .runtime

/-- What follows the first occurrence of `marker`. -/
def afterFirst (marker : Bytes) : Bytes → Option Bytes
  | [] => if marker = [] then some [] else none
  | c :: s => if marker.isPrefixOf (c :: s) then some ((c :: s).drop marker.length) else afterFirst marker s

/-! ### OpenAI -/

def decodeImageUrl (url : Bytes) : Except Exn Bytes :=
  match afterFirst (.ofAscii "base64,") url with
  | some data =>
    if (Bytes.ofAscii "data:").isPrefixOf url then decodeBase64 data
    else .error (.runtime "only base64 'data:' image URLs are supported")
  | none => .error (.runtime "only base64 'data:' image URLs are supported")

/-- The text and the images of one part. -/
def parsePart (part : Json) : Except Exn (Bytes × List Bytes) :=
  if !part.isObject then .ok ([], [])
  else do
    let type ← part.value Json.getString "type" []
    if type = .ofAscii "text" then
      let text ← part.value Json.getString "text" []
      return (text, [])
    else if type = .ofAscii "image_url" then
      let url ← match part.find? "image_url" with
        | some (.obj fields) => (Json.obj fields).value Json.getString "url" []
        | some (.str s) => pure s
        | _ => pure []
      if url = [] then return ([], [])
      else
        let image ← decodeImageUrl url
        return ([], [image])
    else return ([], [])

def parseContent : Json → Except Exn (Bytes × List Bytes)
  | .str s => .ok (s, [])
  | .arr parts => do
    let parts ← parts.mapM parsePart
    return (parts.flatMap (·.1), parts.flatMap (·.2))
  | _ => .error (.runtime "'content' must be a string or an array of parts")

/-- `role` and `content` of a message, which it cannot do without. -/
def messageRole (m : Json) : Except Exn Bytes :=
  match m.find? "role" with
  | some role => role.getString
  | none => .error (.runtime "each message needs a 'role'")

def messageContent (m : Json) : Except Exn Json :=
  match m.find? "content" with
  | none | some .null => .error (.runtime "each message needs 'content'")
  | some content => .ok content

section
variable (js : JsonLib)

def parseMessage (m : Json) : Except Exn Turn := do
  let role ← messageRole m
  match (m.find? "tool_calls").filter fun calls => decide (role = .ofAscii "assistant") && !calls.isNull with
  | some toolCalls =>
    -- an assistant tool call carries no textual content
    let toolCall ← renderAssistantToolCall js toolCalls
    return ({ role, content := [], toolCall }, [])
  | none =>
    let (content, images) ← parseContent (← messageContent m)
    return ({ role, content }, images)

/-- The messages of `parse_chat_request`. -/
def chatTurns (body : Json) : Except Exn (List Turn) :=
  match body.find? "messages" with
  | some (.arr (m :: ms)) => (m :: ms).mapM (parseMessage js)
  | _ => .error (.runtime "'messages' must be a non-empty array")

end

/-! ### Anthropic -/

def textOfBlock (b : Json) : Except Exn Bytes :=
  if !b.isObject then .ok []
  else do
    let type ← b.value Json.getString "type" []
    if type = .ofAscii "text" then b.value Json.getString "text" [] else return []

def textOf : Json → Except Exn Bytes
  | .str s => .ok s
  | .arr blocks => do
    let texts ← blocks.mapM textOfBlock
    return texts.flatten
  | _ => .ok []

/-- What `append_message` has collected from the blocks so far; each tool result becomes a turn of its own. -/
structure BlockTurn where
  results : List Bytes := []
  text : Bytes := []
  toolUses : List Json := []
  images : List Bytes := []

def appendBlock (t : BlockTurn) (b : Json) : Except Exn BlockTurn :=
  if !b.isObject then .ok t
  else do
    let type ← b.value Json.getString "type" []
    if type = .ofAscii "text" then
      let text ← b.value Json.getString "text" []
      return { t with text := t.text ++ text }
    else if type = .ofAscii "tool_use" then return { t with toolUses := t.toolUses ++ [b] }
    else if type = .ofAscii "tool_result" then
      let content ← textOf ((b.find? "content").getD .null)
      return { t with results := t.results ++ [content] }
    else if type = .ofAscii "image" then
      match b.find? "source" with
      | some (.obj fields) =>
        let kind ← (Json.obj fields).value Json.getString "type" []
        if kind = .ofAscii "base64" then
          let image ← decodeBase64 (← (Json.obj fields).value Json.getString "data" [])
          return { t with images := t.images ++ [image] }
        else return t
      | _ => return t
    else return t

section
variable (js : JsonLib)

def renderToolUse (block : Json) : Except Exn Bytes := do
  let name ← js.dump (.str (← block.value Json.getString "name" []))
  let input ← js.dump ((block.find? "input").getD (.obj []))
  return .ofAscii "\x7b\"name\": " ++ name ++ (.ofAscii ", \"parameters\": " ++ input ++ .ofAscii "\x7d")

/-- The turns of one message. -/
def appendMessage (m : Json) : Except Exn (List Turn) := do
  let role ← messageRole m
  match ← messageContent m with
  | .str s => return [({ role, content := s }, [])]
  | .arr blocks =>
    let t ← blocks.foldlM appendBlock {}
    let calls ← t.toolUses.mapM (renderToolUse js)
    return (t.results.map fun content => ({ role := .ofAscii "tool", content }, [])) ++
      (if t.text ≠ [] ∨ t.images ≠ [] then [({ role, content := t.text }, t.images)] else []) ++
      calls.map fun toolCall => ({ role := .ofAscii "assistant", content := [], toolCall }, [])
  | _ => .error (.runtime "'content' must be a string or array of blocks")

/-- The leading system turn. -/
def systemTurns (body : Json) : Except Exn (List Turn) :=
  match body.find? "system" with
  | none | some .null => .ok []
  | some s => do
    let content ← textOf s
    return if content = [] then [] else [({ role := .ofAscii "system", content }, [])]

/-- The messages of `parse_messages_request`. -/
def messagesTurns (body : Json) : Except Exn (List Turn) := do
  let system ← systemTurns body
  match body.find? "messages" with
  | some (.arr (m :: ms)) =>
    let turns ← (m :: ms).mapM (appendMessage js)
    return system ++ turns.flatten
  | _ => .error (.runtime "'messages' must be a non-empty array")

/-- The two surfaces. -/
inductive ApiSurface where
  | openAi | anthropic

def ApiSurface.turns : ApiSurface → Json → Except Exn (List Turn)
  | .openAi => chatTurns js
  | .anthropic => messagesTurns js

variable {js}

/-! ### No placeholders yet -/

/-- What a walk made, it made of some item. -/
theorem mapM_mem {ε α β : Type} {f : α → Except ε β} {xs : List α} {ys : List β} (ok : xs.mapM f = .ok ys) {y : β}
    (member : y ∈ ys) : ∃ x, f x = .ok y := by
  obtain ⟨i, inside, rfl⟩ := List.getElem_of_mem member
  have room : i < xs.length := mapM_length ok ▸ inside
  obtain ⟨y, found, made⟩ := mapM_getElem ok (List.getElem?_eq_getElem room)
  rw [List.getElem?_eq_getElem inside] at found
  exact ⟨_, Option.some.inj found ▸ made⟩

theorem parseMessage_counts {m : Json} {turn : Turn} (parsed : parseMessage js m = .ok turn) : turn.1.imageTokenCounts = [] := by
  unfold parseMessage at parsed
  obtain ⟨role, _, parsed⟩ := bind_ok parsed
  split at parsed
  · obtain ⟨toolCall, _, parsed⟩ := bind_ok parsed
    rw [← pure_ok parsed]
  · obtain ⟨content, _, parsed⟩ := bind_ok parsed
    obtain ⟨parts, _, parsed⟩ := bind_ok parsed
    rw [← pure_ok parsed]

theorem appendMessage_counts {m : Json} {turns : List Turn} (appended : appendMessage js m = .ok turns) :
    ∀ turn ∈ turns, turn.1.imageTokenCounts = [] := by
  unfold appendMessage at appended
  obtain ⟨role, _, appended⟩ := bind_ok appended
  obtain ⟨content, _, appended⟩ := bind_ok appended
  split at appended
  · rw [← pure_ok appended]
    simp
  · obtain ⟨t, _, appended⟩ := bind_ok appended
    obtain ⟨calls, _, appended⟩ := bind_ok appended
    rw [← pure_ok appended]
    intro turn member
    rcases List.mem_append.mp member with member | member
    · rcases List.mem_append.mp member with member | member
      · obtain ⟨content, _, rfl⟩ := List.mem_map.mp member
        rfl
      · split at member
        · rw [List.mem_singleton.mp member]
        · cases member
    · obtain ⟨toolCall, _, rfl⟩ := List.mem_map.mp member
      rfl
  · cases appended

theorem systemTurns_counts {body : Json} {turns : List Turn} (parsed : systemTurns body = .ok turns) :
    ∀ turn ∈ turns, turn.1.imageTokenCounts = [] := by
  unfold systemTurns at parsed
  split at parsed
  · obtain rfl := Except.ok.inj parsed
    simp
  · obtain rfl := Except.ok.inj parsed
    simp
  · obtain ⟨content, _, parsed⟩ := bind_ok parsed
    rw [← pure_ok parsed]
    split
    · simp
    · simp

theorem turns_counts {surface : ApiSurface} {body : Json} {turns : List Turn} (parsed : surface.turns js body = .ok turns) :
    ∀ turn ∈ turns, turn.1.imageTokenCounts = [] := by
  cases surface with
  | openAi =>
    change chatTurns js body = .ok turns at parsed
    unfold chatTurns at parsed
    split at parsed
    · intro turn member
      obtain ⟨m, made⟩ := mapM_mem parsed member
      exact parseMessage_counts made
    · cases parsed
  | anthropic =>
    change messagesTurns js body = .ok turns at parsed
    unfold messagesTurns at parsed
    obtain ⟨system, leading, parsed⟩ := bind_ok parsed
    split at parsed
    · obtain ⟨later, made, parsed⟩ := bind_ok parsed
      rw [← pure_ok parsed]
      intro turn member
      rcases List.mem_append.mp member with front | back
      · exact systemTurns_counts leading turn front
      · obtain ⟨part, listed, inside⟩ := List.mem_flatten.mp back
        obtain ⟨m, appended⟩ := mapM_mem made listed
        exact appendMessage_counts appended turn inside
    · cases parsed

end

end Mlxforge
