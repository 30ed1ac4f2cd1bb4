import Mlxforge.Server.ChatStreaming

/-!
Streaming and blocking answers compared: what the frames of a stream say together, and when it is what the one response
says.
-/

namespace Mlxforge

open Utf8 (Valid)

/-! ### Reading responses and chunks -/

namespace Json

def firstChoice (j : Json) : Option Json :=
  match j.find? "choices" with
  | some (.arr (choice :: _)) => some choice
  | _ => none

/-- The text under `message` or `delta`; a null content is no text. -/
def contentIn (key : String) (j : Json) : Bytes :=
  match (j.firstChoice.bind (find? key)).bind (find? "content") with
  | some (.str s) => s
  | _ => []

def toolCallsIn (key : String) (j : Json) : List Json :=
  match (j.firstChoice.bind (find? key)).bind (find? "tool_calls") with
  | some (.arr calls) => calls
  | _ => []

def finishIn (j : Json) : List Bytes :=
  match j.firstChoice.bind (find? "finish_reason") with
  | some (.str s) => [s]
  | _ => []

def logprobsIn (j : Json) : List Json :=
  match (j.firstChoice.bind (find? "logprobs")).bind (find? "content") with
  | some (.arr entries) => entries
  | _ => []

end Json

open Json

/-- The frames of a stream say what the response says. -/
structure SameAnswer (response : Json) (frames : List Json) : Prop where
  content : frames.flatMap (contentIn "delta") = contentIn "message" response
  toolCalls : frames.flatMap (toolCallsIn "delta") = toolCallsIn "message" response
  finish : frames.flatMap finishIn = finishIn response
  logprobs : frames.flatMap logprobsIn = logprobsIn response

/-! ### The four kinds of chunk -/

namespace ChatStream

variable (sv : Server)

/-- The only choice of a chunk. -/
theorem chunk_firstChoice (delta finish lp : Json) : (chunk sv delta finish lp).firstChoice =
    some (.object ([("index", .int 0), ("delta", delta), ("finish_reason", finish)] ++
      if lp.isNull then [] else [("logprobs", .object [("content", lp)])])) := by
  simp +decide [firstChoice, chunk, makeChatChunk]

theorem roleChunk_says : contentIn "delta" (roleChunk sv) = [] ∧ toolCallsIn "delta" (roleChunk sv) = [] ∧
    finishIn (roleChunk sv) = [] ∧ logprobsIn (roleChunk sv) = [] := by
  simp +decide [roleChunk, contentIn, toolCallsIn, finishIn, logprobsIn, chunk_firstChoice]

theorem contentChunk_says (wantLp : Bool) (part : Bytes × List (TokenLogprob Rat)) :
    contentIn "delta" (contentChunk sv wantLp part) = part.1 ∧ toolCallsIn "delta" (contentChunk sv wantLp part) = [] ∧
      finishIn (contentChunk sv wantLp part) = [] ∧
      logprobsIn (contentChunk sv wantLp part) = if wantLp then part.2.map (tokenEntry sv.tok) else [] := by
  cases wantLp <;>
    simp +decide [contentChunk, contentIn, toolCallsIn, finishIn, logprobsIn, chunk_firstChoice, isNull, makeLogprobsContent]

theorem toolsChunk_says (calls : List ToolCall) : contentIn "delta" (toolsChunk sv calls) = [] ∧
    toolCallsIn "delta" (toolsChunk sv calls) = calls.mapIdx toolCallJson ∧ finishIn (toolsChunk sv calls) = [] ∧
    logprobsIn (toolsChunk sv calls) = [] := by
  simp +decide [toolsChunk, contentIn, toolCallsIn, finishIn, logprobsIn, chunk_firstChoice, makeToolCalls]

theorem finalChunk_says (finish : Bytes) : contentIn "delta" (finalChunk sv finish) = [] ∧
    toolCallsIn "delta" (finalChunk sv finish) = [] ∧ finishIn (finalChunk sv finish) = [finish] ∧
    logprobsIn (finalChunk sv finish) = [] := by
  simp +decide [finalChunk, contentIn, toolCallsIn, finishIn, logprobsIn, chunk_firstChoice]

/-- A stream of content says its parts. -/
theorem contentFrames_says (wantLp : Bool) (parts : List Part) (finish : Bytes) :
    let frames := roleChunk sv :: (parts.map (contentChunk sv wantLp) ++ [finalChunk sv finish])
    frames.flatMap (contentIn "delta") = parts.flatMap (·.1) ∧ frames.flatMap (toolCallsIn "delta") = [] ∧
      frames.flatMap finishIn = [finish] ∧
      frames.flatMap logprobsIn = if wantLp then (parts.flatMap (·.2)).map (tokenEntry sv.tok) else [] := by
  have role := roleChunk_says sv
  have final := finalChunk_says sv finish
  have contents := contentChunk_says sv wantLp
  simp only [List.flatMap_cons, List.flatMap_append, List.flatMap_map, role, final, contents, List.nil_append,
    List.append_nil, List.flatMap_nil]
  refine ⟨trivial, by simp, by simp, ?_⟩
  cases wantLp with
  | true => simp [List.map_flatMap]
  | false => simp

theorem toolFrames_says (calls : List ToolCall) (finish : Bytes) :
    let frames := [roleChunk sv, toolsChunk sv calls, finalChunk sv finish]
    frames.flatMap (contentIn "delta") = [] ∧ frames.flatMap (toolCallsIn "delta") = calls.mapIdx toolCallJson ∧
      frames.flatMap finishIn = [finish] ∧ frames.flatMap logprobsIn = [] := by
  have role := roleChunk_says sv
  have tools := toolsChunk_says sv calls
  have final := finalChunk_says sv finish
  simp [role, tools, final]

end ChatStream

theorem makeChatCompletion_says (sv : Server) (content finish : Bytes) (p c : Int) (lps : List (TokenLogprob Rat))
    (wantLp : Bool) :
    let response := makeChatCompletion (sv.nextId "chatcmpl-") sv.created sv.model content finish p c
      (if wantLp then makeLogprobsContent sv.tok lps else .null)
    contentIn "message" response = content ∧ toolCallsIn "message" response = [] ∧ finishIn response = [finish] ∧
      logprobsIn response = if wantLp then lps.map (tokenEntry sv.tok) else [] := by
  cases wantLp <;>
    simp +decide [makeChatCompletion, contentIn, toolCallsIn, finishIn, logprobsIn, firstChoice, isNull,
      makeLogprobsContent]

theorem makeChatCompletionTools_says (sv : Server) (calls : List ToolCall) (p c : Int) :
    let response := makeChatCompletionTools (sv.nextId "chatcmpl-") sv.created sv.model calls p c
    contentIn "message" response = [] ∧ toolCallsIn "message" response = calls.mapIdx toolCallJson ∧
      finishIn response = [.ofAscii "tool_calls"] ∧ logprobsIn response = [] := by
  simp +decide [makeChatCompletionTools, contentIn, toolCallsIn, finishIn, logprobsIn, firstChoice, makeToolCalls,
    Json.text]

/-! ### The handlers -/

section
variable {sv : Server} {cr : ChatRequest} {r : Generated}

theorem runBlocking_content (chat : cr.isChat = true) (none : sv.calls cr.toolsEnabled (r.text sv.tok) = .ok []) :
    sv.runBlocking cr r = .ok (makeChatCompletion (sv.nextId "chatcmpl-") sv.created sv.model (r.text sv.tok)
      (finishReasonOf r.finishReason) r.promptTokens r.ids.length
      (if r.wantLp then makeLogprobsContent sv.tok r.logprobs else .null)) := by
  unfold Server.runBlocking
  rw [if_pos chat]
  unfold Generated.text at *
  rw [none]
  rfl

theorem runBlocking_calls (chat : cr.isChat = true) {calls : List ToolCall} (some : calls ≠ [])
    (found : sv.calls cr.toolsEnabled (r.text sv.tok) = .ok calls) :
    sv.runBlocking cr r = .ok (makeChatCompletionTools (sv.nextId "chatcmpl-") sv.created sv.model calls r.promptTokens
      r.ids.length) := by
  have nonempty : ¬calls.isEmpty = true := by simpa using some
  unfold Server.runBlocking
  rw [if_pos chat]
  unfold Generated.text at *
  rw [found]
  dsimp only
  rw [ok_bind, if_neg nonempty]
  rfl

theorem runBlocking_error (chat : cr.isChat = true) {e : Exn}
    (thrown : sv.calls cr.toolsEnabled (r.text sv.tok) = .error e) : sv.runBlocking cr r = .error e := by
  unfold Server.runBlocking
  rw [if_pos chat]
  unfold Generated.text at *
  rw [thrown]
  rfl

/-- A stream of content that got through says what the response says exactly if no log-prob is lost. -/
theorem content_same_iff {tools : Bool} {parts : List Part} {lost : List (TokenLogprob Rat)} {p c : Int} {finish : Bytes}
    (content : ChatStream.Content sv tools r parts lost) :
    SameAnswer (makeChatCompletion (sv.nextId "chatcmpl-") sv.created sv.model (r.text sv.tok) finish p c
        (if r.wantLp then makeLogprobsContent sv.tok r.logprobs else .null))
      (ChatStream.roleChunk sv :: (parts.map (ChatStream.contentChunk sv r.wantLp) ++ [ChatStream.finalChunk sv finish])) ↔
      (r.wantLp = true → lost = []) := by
  obtain ⟨content₁, calls₁, finish₁, logprobs₁⟩ := ChatStream.contentFrames_says sv r.wantLp parts finish
  obtain ⟨content₂, calls₂, finish₂, logprobs₂⟩ :=
    makeChatCompletion_says sv (r.text sv.tok) finish p c r.logprobs r.wantLp
  constructor
  · rintro ⟨-, -, -, same⟩ want
    rw [logprobs₁, logprobs₂, want, if_pos rfl, if_pos rfl] at same
    have lengths := congrArg List.length same
    rw [List.length_map, List.length_map, ← content.logprobs, List.length_append] at lengths
    exact List.eq_nil_of_length_eq_zero (by omega)
  · intro keeps
    refine ⟨?_, calls₁.trans calls₂.symm, finish₁.trans finish₂.symm, ?_⟩
    · rw [content₁, content₂, content.texts]
    · rw [logprobs₁, logprobs₂]
      cases want : r.wantLp with
      | false => rfl
      | true => rw [← content.logprobs, keeps want, List.append_nil]

end

section
variable {sv : Server} {tools : Bool} {r : Generated} {calls : List ToolCall}

theorem calls_parsed (none : calls ≠ []) (found : sv.calls tools (r.text sv.tok) = .ok calls) :
    tools = true ∧ parseToolCalls sv.js (r.text sv.tok) = .ok calls := by
  unfold Server.calls at found
  split at found
  next on => exact ⟨on, found⟩
  · cases found
    exact absurd rfl none

theorem calls_parsedBy (found : sv.calls tools (r.text sv.tok) = .ok calls) : ∀ call ∈ calls, call.ParsedBy sv.js := by
  unfold Server.calls at found
  split at found
  · exact parseToolCalls_parsed found
  · cases found
    nofun

theorem text_of_calls (none : calls ≠ []) (found : sv.calls tools (r.text sv.tok) = .ok calls) : r.text sv.tok ≠ [] := by
  intro empty
  have parsed : parseToolCalls sv.js (r.text sv.tok) ≠ .ok [] := by
    rw [(calls_parsed none found).2]
    simpa using none
  have brace := brace_of_calls parsed
  rw [empty] at brace
  cases brace

/-- Text that is no tool call, or not one that begins with a brace, goes out as content. -/
theorem contentFrames_of_no_front (front : ¬(calls ≠ [] ∧ ((r.text sv.tok).find? fun b => !isBlank b) = some 0x7B))
    (found : sv.calls tools (r.text sv.tok) = .ok calls) :
    ∃ parts lost, ChatStream.Content sv tools r parts lost ∧
      sv.chatFrames tools r = (ChatStream.roleChunk sv :: (parts.map (ChatStream.contentChunk sv r.wantLp) ++
        [ChatStream.finalChunk sv (finishReasonOf r.finishReason)]), none) := by
  have parsed (on : tools = true) : parseToolCalls sv.js (r.text sv.tok) = .ok calls := by
    rwa [Server.calls, if_pos on] at found
  obtain ⟨parts, lost, content, eq, -⟩ | ⟨calls', on, some, ne, brace, -⟩ | ⟨e, on, thrown, -⟩ :=
    ChatStream.chatFrames_cases sv tools r
  · exact ⟨parts, lost, content, eq⟩
  · obtain rfl := Except.ok.inj ((parsed on).symm.trans some)
    exact absurd ⟨ne, brace⟩ front
  · cases (parsed on).symm.trans thrown

theorem toolFrames_of_brace (none : calls ≠ []) (found : sv.calls tools (r.text sv.tok) = .ok calls)
    (brace : ((r.text sv.tok).find? fun b => !isBlank b) = some 0x7B) :
    sv.chatFrames tools r =
      ([ChatStream.roleChunk sv, ChatStream.toolsChunk sv calls, ChatStream.finalChunk sv (.ofAscii "tool_calls")],
        .none) := by
  obtain ⟨on, parsed⟩ := calls_parsed none found
  obtain ⟨_, _, -, -, off | nothing | other⟩ | ⟨calls', -, some, -, -, eq⟩ | ⟨e, -, thrown, -⟩ :=
    ChatStream.chatFrames_cases sv tools r
  · cases on.symm.trans off
  · exact absurd (Except.ok.inj (parsed.symm.trans nothing)) none
  · exact absurd brace other
  · obtain rfl := Except.ok.inj (parsed.symm.trans some)
    exact eq
  · cases parsed.symm.trans thrown

end

/-! ### The answers compared -/

section
variable {sv : Server} {cr : ChatRequest} {r : Generated}

/-- Both handlers get through, and the stream says what the response says. -/
def Agree (sv : Server) (cr : ChatRequest) (r : Generated) : Prop :=
  ∃ response frames, sv.runBlocking cr r = .ok response ∧ sv.streamChat cr.toolsEnabled r = (frames, none) ∧
    SameAnswer response frames

theorem streamChat_whole (lawful : sv.js.Lawful) {tools : Bool} {frames : List Json}
    (eq : sv.chatFrames tools r = (frames, none)) :
    (∃ sent, sv.streamChat tools r = (sent, none)) ↔ ∀ frame ∈ frames, frame.clean = true := by
  rw [Server.streamChat, eq]
  exact Server.sendFrames_all lawful

theorem streamChat_frames {tools : Bool} {frames sent : List Json} (eq : sv.chatFrames tools r = (frames, none))
    (out : sv.streamChat tools r = (sent, none)) : sent = frames := by
  rw [Server.streamChat, eq] at out
  exact (congrArg Prod.fst out).symm.trans (Server.sendFrames_frames (congrArg Prod.snd out))

/-- Without tool calls. -/
theorem agree_of_no_calls (lawful : sv.js.Lawful) (chat : cr.isChat = true)
    (found : sv.calls cr.toolsEnabled (r.text sv.tok) = .ok []) :
    Agree sv cr r ↔ Valid sv.model ∧ Valid (r.text sv.tok) ∧
      (r.wantLp = true → (∀ lp ∈ r.emitted, Reportable sv.tok lp) ∧ r.KeepsLogprobs sv.tok cr.toolsEnabled) := by
  obtain ⟨parts, lost, content, eq⟩ := contentFrames_of_no_front (by simp) found
  have clean := ChatStream.contentFrames_clean content r.finishReason
  have answer := runBlocking_content chat found
  constructor
  · rintro ⟨response, sent, ok, out, same⟩
    obtain rfl := streamChat_frames eq out
    obtain rfl := Except.ok.inj (answer.symm.trans ok)
    obtain ⟨model, text, entries⟩ := clean.mp ((streamChat_whole lawful eq).mp ⟨_, out⟩)
    refine ⟨model, text, fun want => ?_⟩
    have kept := (content_same_iff content).mp same want
    refine ⟨?_, (content.lost text want).mp kept⟩
    rw [← content.all_sent want kept]
    exact entries want
  · rintro ⟨model, text, entries⟩
    have kept (want : r.wantLp = true) : lost = [] := (content.lost text want).mpr (entries want).2
    have reportable (want : r.wantLp = true) : ∀ lp ∈ parts.flatMap (·.2), Reportable sv.tok lp := by
      rw [content.all_sent want (kept want)]
      exact (entries want).1
    obtain ⟨sent, out⟩ := (streamChat_whole lawful eq).mpr (clean.mpr ⟨model, text, reportable⟩)
    obtain rfl := streamChat_frames eq out
    exact ⟨_, _, answer, out, (content_same_iff content).mpr kept⟩

/-- With tool calls: what does not begin with a brace goes out as content. -/
theorem agree_of_calls (lawful : sv.js.Lawful) (chat : cr.isChat = true) {calls : List ToolCall} (some : calls ≠ [])
    (found : sv.calls cr.toolsEnabled (r.text sv.tok) = .ok calls) :
    Agree sv cr r ↔ Valid sv.model ∧ ((r.text sv.tok).find? fun b => !isBlank b) = .some 0x7B := by
  have clean := ChatStream.toolFrames_clean sv fun call hc => (calls_parsedBy found call hc).clean lawful
  have answer := runBlocking_calls chat some found
  obtain ⟨content₁, calls₁, finish₁, logprobs₁⟩ := makeChatCompletionTools_says sv calls r.promptTokens r.ids.length
  constructor
  · rintro ⟨response, sent, ok, out, same⟩
    obtain rfl := Except.ok.inj (answer.symm.trans ok)
    by_cases brace : ((r.text sv.tok).find? fun b => !isBlank b) = .some 0x7B
    · have eq := toolFrames_of_brace some found brace
      exact ⟨clean.mp ((streamChat_whole lawful eq).mp ⟨_, out⟩), brace⟩
    · obtain ⟨parts, lost, content, eq⟩ := contentFrames_of_no_front (fun front => brace front.2) found
      obtain rfl := streamChat_frames eq out
      have text := same.content
      rw [(ChatStream.contentFrames_says sv r.wantLp parts _).1, content₁, content.texts] at text
      exact absurd text (text_of_calls some found)
  · rintro ⟨model, brace⟩
    have eq := toolFrames_of_brace some found brace
    obtain ⟨sent, out⟩ := (streamChat_whole lawful eq).mpr (clean.mpr model)
    obtain rfl := streamChat_frames eq out
    obtain ⟨content₂, calls₂, finish₂, logprobs₂⟩ := ChatStream.toolFrames_says sv calls (.ofAscii "tool_calls")
    exact ⟨_, _, answer, out, content₂.trans content₁.symm, calls₂.trans calls₁.symm, finish₂.trans finish₁.symm,
      logprobs₂.trans logprobs₁.symm⟩

end

/-- Streaming and blocking give the same answer exactly if the answer can be serialized and either is a tool call that
begins with a brace, or content whose log-probs all find a chunk to go with. -/
theorem same_answer_iff (sv : Server) (lawful : sv.js.Lawful) (cr : ChatRequest) (chat : cr.isChat = true)
    (r : Generated) :
    Agree sv cr r ↔
    Valid sv.model ∧ ∃ calls, sv.calls cr.toolsEnabled (r.text sv.tok) = .ok calls ∧
      if calls = [] then
        Valid (r.text sv.tok) ∧
          (r.wantLp = true → (∀ lp ∈ r.emitted, Reportable sv.tok lp) ∧ r.KeepsLogprobs sv.tok cr.toolsEnabled)
      else ((r.text sv.tok).find? fun b => !isBlank b) = some 0x7B := by
  cases found : sv.calls cr.toolsEnabled (r.text sv.tok) with
  | error e => simp [Agree, runBlocking_error chat found]
  | ok calls =>
    by_cases none : calls = []
    · subst none
      rw [agree_of_no_calls lawful chat found]
      simp
    · rw [agree_of_calls lawful chat none found]
      simp [none]

namespace SameAnswer

/-- A library that parses no more than the empty object. -/
def plainJson : JsonLib :=
  { parse := fun s => if s = .ofAscii "\x7b\x7d" then .ok (.obj []) else .error .parse, num := fun _ => .ofAscii "0" }

theorem plainJson_parse {s : Bytes} {j : Json} (h : plainJson.parse s = .ok j) : j = .obj [] := by
  unfold plainJson at h
  dsimp only at h
  split at h
  · exact (Except.ok.inj h).symm
  · cases h

theorem plainJson_lawful : plainJson.Lawful where
  clean h := by
    rw [plainJson_parse h]
    rfl
  num := fun _ => Utf8Text.valid_ofAscii (by decide)
  empty := rfl
  reparse h found := by
    cases plainJson_parse h
    cases found

/-- The token 0 is a text, the token 1 is special and has none. -/
def twoTokens : Tokenizer :=
  { impl := .spm { idToToken := [.ofAscii "hi", .ofAscii "<|pad|>"], specialIds := [1], byteTokenValue := [] } }

def server : Server := { js := plainJson, tok := twoTokens, model := .ofAscii "m", counter := 0, created := 0 }

def generated (ids : List Int) : Generated :=
  { emitted := ids.map fun id => { id, logprob := 0, top := [] }, finishReason := .ofAscii "stop", wantLp := true,
    promptTokens := 1 }

end SameAnswer

open SameAnswer in
theorem same_answer_text : Agree server { messages := [] } (generated [0]) := by
  refine (same_answer_iff server plainJson_lawful { messages := [] } rfl (generated [0])).mpr ⟨by decide, [], rfl, ?_⟩
  rw [if_pos rfl]
  refine ⟨by decide, fun _ => ⟨?_, .inr ?_⟩⟩
  · simp [generated, Reportable, server]
    decide
  · simp [generated, server, ChatRequest.toolsEnabled]
    decide

open SameAnswer in
/-- The log-prob of a last token without text is in the response and not in the stream. -/
theorem same_answer_loses_logprob : ¬Agree server { messages := [] } (generated [0, 1]) := by
  rw [agree_of_no_calls plainJson_lawful rfl rfl]
  rintro ⟨-, -, kept⟩
  rcases (kept rfl).2 with none | last
  · cases none
  · simp [generated, server, ChatRequest.toolsEnabled] at last
    revert last
    decide

end Mlxforge
