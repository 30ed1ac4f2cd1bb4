import Mlxforge.Server.Anthropic
import Mlxforge.Server.ChatStreaming

/-!
`stream_messages` holds back and releases the text as `stream_chat` does, so it can be serialized for the same texts.
-/

namespace Mlxforge

open Utf8 (Valid)
open Utf8Text
open ChatStream (Round Streaming partOf)

theorem nextId_valid (sv : Server) (tag : String) (ascii : (tag.toList.all fun c => decide (c.toNat < 0x80)) = true) :
    Valid (sv.nextId tag) :=
  valid_tagged tag sv.counter ascii

/-- All payloads can be serialized. -/
def CleanEvents (events : List SseEvent) : Prop := ∀ event ∈ events, event.2.clean = true

theorem cleanEvents_iff (events : List SseEvent) :
    CleanEvents events ↔ ∀ frame ∈ events.map (·.2), frame.clean = true := by
  rw [List.forall_mem_map]
  rfl

section
variable {events more : List SseEvent} {event : SseEvent}

@[simp] theorem cleanEvents_nil : CleanEvents [] := nofun

@[simp] theorem cleanEvents_cons : CleanEvents (event :: events) ↔ event.2.clean = true ∧ CleanEvents events :=
  List.forall_mem_cons

@[simp] theorem cleanEvents_append : CleanEvents (events ++ more) ↔ CleanEvents events ∧ CleanEvents more :=
  List.forall_mem_append

end

theorem textBlock_clean (text : Bytes) : (textBlock text).clean = true ↔ Valid text := by
  simp (disch := decide) [textBlock, Json.text, check_ofAscii, valid_ofAscii]

theorem makeContentBlockStart_clean (index : Nat) (block : Json) :
    (makeContentBlockStart index block).clean = true ↔ block.clean = true := by
  simp (disch := decide) [makeContentBlockStart, Json.text, check_ofAscii, valid_ofAscii]

theorem makeTextDelta_clean (index : Nat) (text : Bytes) : (makeTextDelta index text).clean = true ↔ Valid text := by
  simp (disch := decide) [makeTextDelta, Json.text, check_ofAscii, valid_ofAscii]

theorem makeInputJsonDelta_clean (index : Nat) (partialJson : Bytes) :
    (makeInputJsonDelta index partialJson).clean = true ↔ Valid partialJson := by
  simp (disch := decide) [makeInputJsonDelta, Json.text, check_ofAscii, valid_ofAscii]

theorem makeContentBlockStop_clean (index : Nat) : (makeContentBlockStop index).clean = true := by
  simp (disch := decide) [makeContentBlockStop, Json.text, check_ofAscii, valid_ofAscii]

theorem anthropicUsage_clean (p c : Int) : (anthropicUsage p c).clean = true := by
  simp (disch := decide) [anthropicUsage, check_ofAscii]

theorem makeMessageStart_clean {id : Bytes} (known : Valid id) (model : Bytes) (p : Int) :
    (makeMessageStart id model p).clean = true ↔ Valid model := by
  simp (disch := decide) [makeMessageStart, Json.text, check_ofAscii, valid_ofAscii, known, anthropicUsage_clean,
    Json.clean_arr]

theorem makeMessageResponse_clean {id stop : Bytes} (known : Valid id) (reason : Valid stop) (model : Bytes)
    (blocks : List Json) (p c : Int) :
    (makeMessageResponse id model blocks stop p c).clean = true ↔ Valid model ∧ ∀ block ∈ blocks, block.clean = true := by
  simp (disch := decide) [makeMessageResponse, Json.text, check_ofAscii, valid_ofAscii, known, reason,
    anthropicUsage_clean, Json.clean_arr]

theorem toolUseBlock_clean (i : Nat) (name : Bytes) (input : Json) :
    (toolUseBlock i name input).clean = true ↔ Valid name ∧ input.clean = true := by
  have id : Valid (Bytes.ofAscii ("toolu_" ++ i.repr)) := valid_tagged "toolu_" i (by decide)
  simp (disch := decide) [toolUseBlock, Json.text, id, check_ofAscii, valid_ofAscii]

theorem valid_anthropicStopReason (reason : Bytes) : Valid (anthropicStopReason reason) := by
  unfold anthropicStopReason
  split
  · exact valid_ofAscii (by decide)
  · exact valid_ofAscii (by decide)

theorem closing_clean (textOpen : Bool) {stop : Bytes} (reason : Valid stop) (n : Int) :
    CleanEvents (MessageStream.closing textOpen stop n) := by
  have delta : (makeMessageDelta stop n).clean = true := by
    simp (disch := decide) [makeMessageDelta, Json.text, check_ofAscii, valid_ofAscii, reason]
  have last : messageStop.clean = true := by
    simp (disch := decide) [messageStop, Json.text, check_ofAscii, valid_ofAscii]
  cases textOpen <;> simp [MessageStream.closing, delta, last, makeContentBlockStop_clean]

theorem callEvents_clean {i : Nat} {call : ToolCall} (clean : call.Clean) : CleanEvents (MessageStream.callEvents i call) := by
  simp [MessageStream.callEvents, makeContentBlockStart_clean, toolUseBlock_clean, makeInputJsonDelta_clean,
    makeContentBlockStop_clean, clean.1, clean.2]

/-! ### The tool-use blocks of a response -/

theorem makeToolUseBlocksFrom_clean {js : JsonLib} (lawful : js.Lawful) {calls : List ToolCall}
    (parsed : ∀ call ∈ calls, call.ParsedBy js) (i : Nat) :
    ∃ blocks, makeToolUseBlocksFrom js i calls = .ok blocks ∧ ∀ block ∈ blocks, block.clean = true := by
  induction calls generalizing i with
  | nil => exact ⟨[], rfl, nofun⟩
  | cons call calls ih =>
    have here := parsed call List.mem_cons_self
    obtain ⟨input, again, clean⟩ := here.arguments lawful
    obtain ⟨blocks, ok, rest⟩ := ih (fun call hc => parsed call (List.mem_cons_of_mem _ hc)) (i + 1)
    have chosen : toolInput js call.arguments = .ok input := by rw [toolInput, again]
    refine ⟨toolUseBlock i call.name input :: blocks, ?_, ?_⟩
    · rw [makeToolUseBlocksFrom, chosen, ok_bind, ok]
      rfl
    · rw [List.forall_mem_cons, toolUseBlock_clean]
      exact ⟨⟨(here.clean lawful).1, clean⟩, rest⟩

/-! ### The stream -/

namespace MessageStream

variable {m m' : MessageStream} {events : List SseEvent}

/-- The part of the state that the chat stream has too. -/
def toChat (m : MessageStream) : ChatStream := { detok := m.detok, buffered := m.buffered, buffering := m.buffering }

theorem openText_clean (m : MessageStream) : CleanEvents m.openText.1 := by
  unfold openText
  split
  · exact cleanEvents_nil
  · simp [makeContentBlockStart_clean, textBlock_clean, Utf8.valid_nil]

theorem sendText_clean (text : Bytes) (m : MessageStream) : CleanEvents (sendText text m).1 ↔ Valid text := by
  unfold sendText
  split
  next none =>
    have none : text = [] := by simpa using none
    rw [none]
    exact iff_of_true cleanEvents_nil Utf8.valid_nil
  · simp [openText_clean, makeTextDelta_clean]

theorem sendText_toChat (text : Bytes) (m : MessageStream) : (sendText text m).2.toChat = m.toChat := by
  unfold sendText openText
  split
  · rfl
  split <;> rfl

/-- A round is one of the chat stream's, without log-probs. -/
theorem onToken_round {lp : TokenLogprob Rat} (h : m.onToken lp.id = (events, m')) :
    ∃ new, Round false m.toChat lp new m'.toChat ∧ (CleanEvents events ↔ ∀ part ∈ new, Valid part.1) := by
  unfold onToken at h
  rcases hadd : m.detok.add lp.id with ⟨piece, detok⟩
  have hadd' : m.toChat.detok.add lp.id = (piece, detok) := hadd
  rw [hadd] at h
  dsimp only at h
  unfold Round held
  rw [hadd']
  split at h
  next none =>
    obtain ⟨rfl, rfl⟩ := Prod.mk.inj h
    exact ⟨[], ⟨piece, detok, rfl, .inl ⟨by simpa using none, rfl, rfl⟩⟩, by simp⟩
  next some =>
    have some : piece ≠ [] := by simpa using some
    split at h
    next buffering =>
      split at h
      next blank =>
        obtain ⟨rfl, rfl⟩ := Prod.mk.inj h
        exact ⟨[], ⟨piece, detok, rfl, .inr (.inl ⟨some, buffering, by rw [toChat, blank], rfl, rfl⟩)⟩, by simp⟩
      next lead first =>
        split at h
        next brace =>
          obtain ⟨rfl, rfl⟩ := Prod.mk.inj h
          exact ⟨[], ⟨piece, detok, rfl,
            .inr (.inl ⟨some, buffering, by rw [toChat, first]; simpa using brace, rfl, rfl⟩)⟩, by simp⟩
        next other =>
          obtain ⟨rfl, rfl⟩ := Prod.mk.inj h
          have kept := sendText_toChat (m.buffered ++ piece)
            { m with detok, buffered := m.buffered ++ piece, buffering := false }
          refine ⟨[(m.buffered ++ piece, _)], ⟨piece, detok, rfl,
            .inr (.inr (.inl ⟨some, buffering, by rw [toChat, first]; simpa using other, rfl, ?_⟩))⟩, ?_⟩
          · unfold toChat at kept ⊢
            injection kept with detok' _ buffering'
            rw [detok', buffering']
          · simp [sendText_clean]
    next live =>
      obtain rfl : (sendText piece { m with detok }).1 = events := congrArg Prod.fst h
      obtain rfl : (sendText piece { m with detok }).2 = m' := congrArg Prod.snd h
      exact ⟨[(piece, _)], ⟨piece, detok, rfl, .inr (.inr (.inr ⟨some, by simpa [toChat] using live, rfl,
        sendText_toChat piece { m with detok }⟩))⟩, by simp [sendText_clean]⟩

theorem drain_streaming {sv : Server} {tools : Bool} {done rest : List (TokenLogprob Rat)} {parts : List Part}
    (h : Streaming sv tools false done parts m.toChat) (run : m.drain (rest.map (·.id)) = (events, m')) :
    ∃ new, Streaming sv tools false (done ++ rest) (parts ++ new) m'.toChat ∧
      (CleanEvents events ↔ ∀ part ∈ new, Valid part.1) := by
  induction rest generalizing done parts m events with
  | nil =>
    obtain ⟨rfl, rfl⟩ := Prod.mk.inj run
    exact ⟨[], by simpa using h, by simp⟩
  | cons lp rest ih =>
    rw [List.map_cons] at run
    unfold drain at run
    rcases first : m.onToken lp.id with ⟨now, m₁⟩
    rcases more : m₁.drain (rest.map (·.id)) with ⟨later, m₂⟩
    rw [first] at run
    dsimp only at run
    rw [more] at run
    obtain ⟨rfl, rfl⟩ := Prod.mk.inj run
    obtain ⟨new, step, clean⟩ := onToken_round first
    obtain ⟨new', last, clean'⟩ := ih (h.round step) more
    refine ⟨new ++ new', by simpa using last, ?_⟩
    rw [cleanEvents_append, clean, clean', List.forall_mem_append]

theorem finishText_clean (text reason : Bytes) (n : Int) (m : MessageStream) :
    CleanEvents (finishText text (anthropicStopReason reason) n m) ↔ Valid text := by
  simp [finishText, sendText_clean, openText_clean, closing_clean _ (valid_anthropicStopReason reason)]

/-! The three ends of the stream. -/

section
variable {js : JsonLib} {reason : Bytes} {n : Int}

theorem finishEvents_live (live : m.buffering = false) : m.finishEvents js reason n =
    .ok (finishText m.detok.finish.1 (anthropicStopReason reason) n { m with detok := m.detok.finish.2 }) := by
  unfold finishEvents
  dsimp only
  rw [if_neg (by simp [live])]

theorem finishEvents_text (buffering : m.buffering = true)
    (parsed : parseToolCalls js (m.buffered ++ m.detok.finish.1) = .ok []) : m.finishEvents js reason n =
    .ok (finishText (m.buffered ++ m.detok.finish.1) (anthropicStopReason reason) n
      { m with detok := m.detok.finish.2 }) := by
  unfold finishEvents
  dsimp only
  rw [if_pos buffering, parsed]
  rfl

theorem finishEvents_calls (buffering : m.buffering = true) {calls : List ToolCall} (some : calls ≠ [])
    (parsed : parseToolCalls js (m.buffered ++ m.detok.finish.1) = .ok calls) : m.finishEvents js reason n =
    .ok ((calls.mapIdx callEvents).flatten ++ closing m.textOpen (.ofAscii "tool_use") n) := by
  have nonempty : ¬calls.isEmpty = true := by simpa using some
  unfold finishEvents
  dsimp only
  rw [if_pos buffering, parsed, ok_bind, if_neg nonempty]
  rfl

end

end MessageStream

end Mlxforge
