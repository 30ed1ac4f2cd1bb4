import Mlxforge.Server.MessageStreaming
import Mlxforge.Server.SameAnswer

/-!
When generated text can be reported: by the C interface's log-probs, and by the blocking and streaming handlers of
both surfaces.
-/

namespace Mlxforge

open Utf8 (Valid)
open Utf8Text
open ChatStream (Streaming)
open Json (firstChoice toolCallsIn logprobsIn)

/-! ### The log-probs of a request -/

/-- One entry of `mlxforge_request_logprobs`. -/
def lpEntry (tok : Tokenizer) (id : Int) (logprob : Rat) : Json :=
  let text := tok.decode [id]
  .object [("token", .str text), ("logprob", .float logprob), ("bytes", .arr (text.map fun c => .int c.toNat))]

/-- The C string, or a null pointer where there are no log-probs or the list cannot be serialized. -/
def requestLogprobs (js : JsonLib) (tok : Tokenizer) (logprobs : List (TokenLogprob Rat)) : Option Bytes :=
  if logprobs.isEmpty then none
  else
    let content := logprobs.map fun lp =>
      let top := lp.top.map fun alt => lpEntry tok alt.1 alt.2
      match lpEntry tok lp.id lp.logprob with
      | .obj fields => Json.obj (fields ++ [(.ofAscii "top_logprobs", .arr top)])
      | entry => entry
    (js.dump (.arr content)).toOption

/-- The entries are those of the handlers. -/
theorem requestLogprobs_eq (js : JsonLib) (tok : Tokenizer) {logprobs : List (TokenLogprob Rat)} (some : logprobs ≠ []) :
    requestLogprobs js tok logprobs = (js.dump (makeLogprobsContent tok logprobs)).toOption := by
  have nonempty : ¬logprobs.isEmpty = true := by simpa using some
  rw [requestLogprobs, if_neg nonempty]
  rfl

/-- One entry for each generated token, in order, with the bytes of the token. -/
def Reported (tok : Tokenizer) (r : Generated) (entries : List Json) : Prop :=
  entries.map (Json.find? "bytes") = r.emitted.map fun lp => some (bytesJson (tok.tokenText lp.id))

theorem tokenEntry_bytes (tok : Tokenizer) (lp : TokenLogprob Rat) :
    (tokenEntry tok lp).find? "bytes" = some (bytesJson (tok.tokenText lp.id)) := by
  simp +decide [tokenEntry, logprobFields, tok.decode_singleton]

theorem reported_entries (tok : Tokenizer) (r : Generated) : Reported tok r (r.emitted.map (tokenEntry tok)) := by
  rw [Reported, List.map_map]
  exact List.map_congr_left fun lp _ => tokenEntry_bytes tok lp

section
variable {sv : Server} {cr : ChatRequest} {r : Generated} {tools : Bool} {calls : List ToolCall}

theorem requestLogprobs_reports (lawful : sv.js.Lawful) :
    (r.logprobs ≠ [] → ∃ entries t, requestLogprobs sv.js sv.tok r.logprobs = some t ∧
      sv.js.dump (.arr entries) = .ok t ∧ Reported sv.tok r entries) ↔
    (r.wantLp = true → ∀ lp ∈ r.emitted, Reportable sv.tok lp) := by
  constructor
  · intro h want
    by_cases none : r.emitted = []
    · simp [none]
    · have list : r.logprobs = r.emitted := if_pos want
      obtain ⟨entries, t, ok, -, -⟩ := h (by rwa [list])
      rw [requestLogprobs_eq _ _ (by rwa [list]), list] at ok
      have dumped : ∃ t, sv.js.dump (makeLogprobsContent sv.tok r.emitted) = .ok t := by
        cases h : sv.js.dump (makeLogprobsContent sv.tok r.emitted) with
        | ok t => exact ⟨t, rfl⟩
        | error e =>
          rw [h] at ok
          cases ok
      exact (makeLogprobsContent_clean sv.tok _).mp ((dump_ok_iff lawful _).mp dumped)
  · intro h some
    have want : r.wantLp = true := by
      by_contra off
      exact some (if_neg off)
    have list : r.logprobs = r.emitted := if_pos want
    obtain ⟨t, ok⟩ := (dump_ok_iff lawful _).mpr ((makeLogprobsContent_clean sv.tok _).mpr (h want))
    refine ⟨r.emitted.map (tokenEntry sv.tok), t, ?_, ok, reported_entries sv.tok r⟩
    rw [requestLogprobs_eq _ _ some, list, ok]
    rfl

/-! ### The blocking handlers -/

theorem makeChatCompletion_clean {id finish : Bytes} (known : Valid id) (reason : Valid finish) (created p c : Int)
    (model content : Bytes) (lps : List (TokenLogprob Rat)) (tok : Tokenizer) (wantLp : Bool) :
    (makeChatCompletion id created model content finish p c
      (if wantLp then makeLogprobsContent tok lps else .null)).clean = true ↔
    Valid model ∧ Valid content ∧ (wantLp = true → ∀ lp ∈ lps, Reportable tok lp) := by
  have shown : Json.isNull (makeLogprobsContent tok lps) = false := rfl
  have none : Json.isNull .null = true := rfl
  have usage := makeUsage_clean p c
  have entries := makeLogprobsContent_clean tok lps
  cases wantLp <;>
    simp (disch := decide) [makeChatCompletion, Json.text, check_ofAscii, valid_ofAscii, known, reason, usage, shown,
      none, entries]

theorem makeChatCompletionTools_clean {id : Bytes} (known : Valid id) (created p c : Int) (model : Bytes)
    (clean : ∀ call ∈ calls, call.Clean) : (makeChatCompletionTools id created model calls p c).clean = true ↔ Valid model := by
  have usage := makeUsage_clean p c
  have blocks := (makeToolCalls_clean calls).mpr clean
  simp (disch := decide) [makeChatCompletionTools, Json.text, check_ofAscii, valid_ofAscii, known, usage, blocks]

/-- The list of a chat answer without tool calls is whole. -/
def BlockingReports (sv : Server) (cr : ChatRequest) (r : Generated) : Prop :=
  ∃ response t, sv.runBlocking cr r = .ok response ∧ sv.js.dump response = .ok t ∧
    (cr.isChat = true → r.wantLp = true → toolCallsIn "message" response = [] → Reported sv.tok r (logprobsIn response))

theorem runBlocking_reports (lawful : sv.js.Lawful) (found : sv.calls cr.toolsEnabled (r.text sv.tok) = .ok calls) :
    BlockingReports sv cr r ↔ Valid sv.model ∧
      (cr.isChat = true ∧ calls ≠ [] ∨
        Valid (r.text sv.tok) ∧ (cr.isChat = true → r.wantLp = true → ∀ lp ∈ r.emitted, Reportable sv.tok lp)) := by
  have id := nextId_valid sv "chatcmpl-" (by decide)
  have reason := ChatStream.valid_finishReasonOf r.finishReason
  have serialized {response : Json} (ok : sv.runBlocking cr r = .ok response)
      (list : cr.isChat = true → r.wantLp = true → toolCallsIn "message" response = [] →
        Reported sv.tok r (logprobsIn response)) : BlockingReports sv cr r ↔ response.clean = true := by
    rw [← dump_ok_iff lawful]
    constructor
    · rintro ⟨response', t, ok', dumped, -⟩
      obtain rfl := Except.ok.inj (ok.symm.trans ok')
      exact ⟨t, dumped⟩
    · rintro ⟨t, dumped⟩
      exact ⟨response, t, ok, dumped, list⟩
  cases chat : cr.isChat with
  | false =>
    have plain : ∃ response, sv.runBlocking cr r = .ok response ∧
        (response.clean = true ↔ Valid sv.model ∧ Valid (r.text sv.tok)) := by
      have usage := makeUsage_clean r.promptTokens r.ids.length
      have id := nextId_valid sv "cmpl-" (by decide)
      unfold Server.runBlocking
      rw [if_neg (by simp [chat])]
      refine ⟨_, rfl, ?_⟩
      simp (disch := decide) [Json.text, check_ofAscii, valid_ofAscii, id, reason, usage, Generated.text]
    obtain ⟨response, ok, clean⟩ := plain
    rw [serialized ok (by simp [chat]), clean]
    simp
  | true =>
    by_cases none : calls = []
    · subst none
      have told := makeChatCompletion_says sv (r.text sv.tok) (finishReasonOf r.finishReason) r.promptTokens r.ids.length
        r.logprobs r.wantLp
      rw [serialized (runBlocking_content chat found) ?_, makeChatCompletion_clean id reason]
      · have list (want : r.wantLp = true) : r.logprobs = r.emitted := if_pos want
        simp +contextual [list]
      · intro _ want _
        rw [told.2.2.2, if_pos want, Generated.logprobs, if_pos want]
        exact reported_entries sv.tok r
    · have response := makeChatCompletionTools_says sv calls r.promptTokens r.ids.length
      rw [serialized (runBlocking_calls chat none found) ?_,
        makeChatCompletionTools_clean id _ _ _ _ fun call hc => (calls_parsedBy found call hc).clean lawful]
      · simp [none]
      · intro _ _ empty
        rw [response.2.1, List.mapIdx_eq_nil_iff] at empty
        exact absurd empty none

theorem runBlockingMessages_reports (lawful : sv.js.Lawful)
    (found : sv.calls cr.toolsEnabled (r.text sv.tok) = .ok calls) :
    (∃ response t, sv.runBlockingMessages cr r = .ok response ∧ sv.js.dump response = .ok t) ↔
      Valid sv.model ∧ (calls ≠ [] ∨ Valid (r.text sv.tok)) := by
  have id := nextId_valid sv "msg_" (by decide)
  have serialized {response : Json} (ok : sv.runBlockingMessages cr r = .ok response) :
      (∃ response t, sv.runBlockingMessages cr r = .ok response ∧ sv.js.dump response = .ok t) ↔
        response.clean = true := by
    simp [ok, ← dump_ok_iff lawful]
  unfold Generated.text at *
  by_cases none : calls = []
  · subst none
    have ok : sv.runBlockingMessages cr r = .ok (makeMessageResponse (sv.nextId "msg_") sv.model
        [textBlock (sv.tok.decode r.ids)] (anthropicStopReason r.finishReason) r.promptTokens r.ids.length) := by
      rw [Server.runBlockingMessages, found]
      rfl
    rw [serialized ok, makeMessageResponse_clean id (valid_anthropicStopReason _)]
    simp [textBlock_clean]
  · obtain ⟨blocks, built, clean⟩ := makeToolUseBlocksFrom_clean lawful (calls_parsedBy found) 0
    have nonempty : ¬calls.isEmpty = true := by simpa using none
    have ok : sv.runBlockingMessages cr r = .ok (makeMessageResponse (sv.nextId "msg_") sv.model blocks
        (.ofAscii "tool_use") r.promptTokens r.ids.length) := by
      rw [Server.runBlockingMessages, found]
      rw [ok_bind, if_neg nonempty, makeToolUseBlocks, built]
      rfl
    rw [serialized ok, makeMessageResponse_clean id (valid_ofAscii (by decide))]
    simp only [none, ne_eq, not_false_eq_true, true_or, and_true, and_iff_left_iff_imp]
    exact fun _ => clean

/-! ### The streams -/

/-- The text that both handlers find a tool call in, before any of it is sent. -/
def CallInFront (sv : Server) (r : Generated) (calls : List ToolCall) : Prop :=
  calls ≠ [] ∧ ((r.text sv.tok).find? fun b => !isBlank b) = some 0x7B

instance (sv : Server) (r : Generated) (calls : List ToolCall) : Decidable (CallInFront sv r calls) :=
  inferInstanceAs (Decidable (_ ∧ _))

/-- The stream gets through, and without tool calls its list is whole. -/
def ChatReports (sv : Server) (tools : Bool) (r : Generated) : Prop :=
  ∃ frames, sv.streamChat tools r = (frames, none) ∧
    (r.wantLp = true → frames.flatMap (toolCallsIn "delta") = [] → Reported sv.tok r (frames.flatMap logprobsIn))

theorem content_reported_iff {parts : List Part} {lost : List (TokenLogprob Rat)}
    (content : ChatStream.Content sv tools r parts lost) (want : r.wantLp = true) (finish : Bytes) :
    Reported sv.tok r ((ChatStream.roleChunk sv :: (parts.map (ChatStream.contentChunk sv r.wantLp) ++
      [ChatStream.finalChunk sv finish])).flatMap logprobsIn) ↔ lost = [] := by
  rw [(ChatStream.contentFrames_says sv r.wantLp parts finish).2.2.2, if_pos want]
  constructor
  · intro same
    have lengths := congrArg List.length same
    have all := congrArg List.length content.logprobs
    rw [Generated.logprobs, if_pos want, List.length_append] at all
    simp only [List.length_map] at lengths
    exact List.eq_nil_of_length_eq_zero (by omega)
  · intro kept
    rw [content.all_sent want kept]
    exact reported_entries sv.tok r

theorem streamChat_reports (lawful : sv.js.Lawful) (found : sv.calls tools (r.text sv.tok) = .ok calls) :
    ChatReports sv tools r ↔ Valid sv.model ∧ (CallInFront sv r calls ∨ Valid (r.text sv.tok) ∧
      (r.wantLp = true → (∀ lp ∈ r.emitted, Reportable sv.tok lp) ∧ r.KeepsLogprobs sv.tok tools)) := by
  by_cases front : CallInFront sv r calls
  · obtain ⟨some, brace⟩ := front
    have eq := toolFrames_of_brace some found brace
    have clean := ChatStream.toolFrames_clean sv fun call hc => (calls_parsedBy found call hc).clean lawful
    have through := (streamChat_whole lawful eq).trans clean
    have told := ChatStream.toolFrames_says sv calls (.ofAscii "tool_calls")
    constructor
    · rintro ⟨sent, out, -⟩
      exact ⟨through.mp ⟨sent, out⟩, .inl ⟨some, brace⟩⟩
    · rintro ⟨model, -⟩
      obtain ⟨sent, out⟩ := through.mpr model
      refine ⟨sent, out, fun _ none => ?_⟩
      obtain rfl := streamChat_frames eq out
      rw [told.2.1, List.mapIdx_eq_nil_iff] at none
      exact absurd none some
  · obtain ⟨parts, lost, content, eq⟩ := contentFrames_of_no_front front found
    have through := (streamChat_whole lawful eq).trans (ChatStream.contentFrames_clean content r.finishReason)
    have none := (ChatStream.contentFrames_says sv r.wantLp parts (finishReasonOf r.finishReason)).2.1
    constructor
    · rintro ⟨sent, out, list⟩
      obtain ⟨model, text, entries⟩ := through.mp ⟨sent, out⟩
      obtain rfl := streamChat_frames eq out
      refine ⟨model, .inr ⟨text, fun want => ?_⟩⟩
      have kept := (content_reported_iff content want _).mp (list want none)
      refine ⟨?_, (content.lost text want).mp kept⟩
      rw [← content.all_sent want kept]
      exact entries want
    · rintro ⟨model, called | ⟨text, entries⟩⟩
      · exact absurd called front
      have kept (want : r.wantLp = true) : lost = [] := (content.lost text want).mpr (entries want).2
      obtain ⟨sent, out⟩ := through.mpr ⟨model, text, fun want => by
        rw [content.all_sent want (kept want)]
        exact (entries want).1⟩
      obtain rfl := streamChat_frames eq out
      exact ⟨_, out, fun want _ => (content_reported_iff content want _).mpr (kept want)⟩

theorem streamMessages_reports (lawful : sv.js.Lawful) (found : sv.calls tools (r.text sv.tok) = .ok calls) :
    (∃ sent, sv.streamMessages tools r = (sent, none)) ↔
      Valid sv.model ∧ (CallInFront sv r calls ∨ Valid (r.text sv.tok)) := by
  rcases run : MessageStream.drain { detok := .new sv.tok, buffering := tools } r.ids with ⟨events, m⟩
  have start := makeMessageStart_clean (nextId_valid sv "msg_" (by decide)) sv.model r.promptTokens
  obtain ⟨parts, h, clean⟩ := MessageStream.drain_streaming (ChatStream.streaming_start sv tools false) run
  rw [List.nil_append, List.nil_append] at h
  have h : Streaming sv tools r.quiet.wantLp r.quiet.emitted parts m.toChat := h
  have through {last : Except Exn (List SseEvent)}
      (eq : m.finishEvents sv.js r.finishReason r.ids.length = last) :
      (∃ sent, sv.streamMessages tools r = (sent, none)) ↔
        ∃ events', last = .ok events' ∧ Valid sv.model ∧ (∀ part ∈ parts, Valid part.1) ∧ CleanEvents events' := by
    rw [Server.streamMessages, Server.messageEvents, run]
    dsimp only
    rw [eq]
    cases last with
    | error e =>
      refine iff_of_false ?_ (by simp)
      rintro ⟨sent, out⟩
      cases ((Server.sendFrames_whole lawful).mp (congrArg Prod.snd out)).1
    | ok last =>
      have whole : CleanEvents (("message_start", makeMessageStart (sv.nextId "msg_") sv.model r.promptTokens) ::
          (events ++ last)) ↔ Valid sv.model ∧ (∀ part ∈ parts, Valid part.1) ∧ CleanEvents last := by
        rw [cleanEvents_cons, cleanEvents_append, clean, start]
      rw [cleanEvents_iff, ← Server.sendFrames_all lawful] at whole
      simpa using whole
  cases buffering : m.buffering with
  | false =>
    have content := (h.content_live buffering).valid_iff
    have live : ¬CallInFront sv r calls := fun front => h.no_brace buffering (calls_parsed front.1 found).1 front.2
    rw [Generated.quiet_text, List.forall_mem_append, ChatStream.partOf_valid] at content
    rw [through (MessageStream.finishEvents_live buffering), ← content]
    simp only [Except.ok.injEq, exists_eq_left', MessageStream.finishText_clean, live, false_or]
    rfl
  | true =>
    obtain ⟨on, rfl, same, -⟩ := h.holds buffering
    have all : m.buffered ++ m.detok.finish.1 = r.text sv.tok := by
      rw [show m.buffered = m.detok.returned from same]
      exact h.returned_tail
    have parsed : parseToolCalls sv.js (m.buffered ++ m.detok.finish.1) = .ok calls := by
      rw [all]
      rwa [Server.calls, if_pos on] at found
    by_cases none : calls = []
    · subst none
      rw [through (MessageStream.finishEvents_text buffering parsed), all]
      simp [MessageStream.finishText_clean, CallInFront]
    · have brace := h.brace buffering (by
        rw [Generated.quiet_text, ← all, parsed]
        simpa using none)
      have events : CleanEvents (calls.mapIdx MessageStream.callEvents).flatten := by
        intro event he
        obtain ⟨block, hb, he⟩ := List.mem_flatten.mp he
        obtain ⟨i, bound, rfl⟩ := List.mem_mapIdx.mp hb
        exact callEvents_clean ((calls_parsedBy found _ (List.getElem_mem bound)).clean lawful) event he
      have front : CallInFront sv r calls := ⟨none, brace⟩
      have last : CleanEvents (MessageStream.closing m.textOpen (.ofAscii "tool_use") r.ids.length) :=
        closing_clean m.textOpen (valid_ofAscii (by decide)) _
      rw [through (MessageStream.finishEvents_calls buffering none parsed)]
      simp [events, front, last]

end

/-- Everything about the generated text can be reported: by the C interface, and by the four handlers. -/
structure Reports (sv : Server) (cr : ChatRequest) (r : Generated) : Prop where
  request : r.logprobs ≠ [] → ∃ entries t, requestLogprobs sv.js sv.tok r.logprobs = some t ∧
    sv.js.dump (.arr entries) = .ok t ∧ Reported sv.tok r entries
  blocking : BlockingReports sv cr r
  messages : ∃ response t, sv.runBlockingMessages cr r = .ok response ∧ sv.js.dump response = .ok t
  chat : ChatReports sv cr.toolsEnabled r
  messageStream : ∃ sent, sv.streamMessages cr.toolsEnabled r = (sent, none)

/-- Everything can be reported exactly if the tool-call parser returns, the reported tokens are whole characters where
log-probs are wanted, and so is the text unless it is a chat's tool call that begins with a brace; and if the last
log-prob of a streamed text has a chunk to go with. -/
theorem reports_iff (sv : Server) (lawful : sv.js.Lawful) (cr : ChatRequest) (r : Generated) :
    Reports sv cr r ↔
    Valid sv.model ∧ (r.wantLp = true → ∀ lp ∈ r.emitted, Reportable sv.tok lp) ∧
      ∃ calls, sv.calls cr.toolsEnabled (r.text sv.tok) = .ok calls ∧
        if CallInFront sv r calls then cr.isChat = false → Valid (r.text sv.tok)
        else Valid (r.text sv.tok) ∧ (r.wantLp = true → r.KeepsLogprobs sv.tok cr.toolsEnabled) := by
  cases found : sv.calls cr.toolsEnabled (r.text sv.tok) with
  | error e =>
    refine iff_of_false (fun h => ?_) (by simp)
    obtain ⟨response, -, ok, -⟩ := h.messages
    rw [Server.runBlockingMessages] at ok
    unfold Generated.text at found
    rw [found] at ok
    cases ok
  | ok calls =>
    have request := requestLogprobs_reports (r := r) lawful
    have blocking := runBlocking_reports lawful found
    have messages := runBlockingMessages_reports lawful found
    have chat := streamChat_reports lawful found
    have stream := streamMessages_reports lawful found
    simp only [Except.ok.injEq, exists_eq_left']
    constructor
    · rintro ⟨h₁, h₂, h₃, h₄, h₅⟩
      have entries := request.mp h₁
      obtain ⟨model, answer⟩ := blocking.mp h₂
      obtain ⟨-, sent⟩ := chat.mp h₄
      refine ⟨model, entries, ?_⟩
      split
      next front =>
        intro plain
        rcases answer with ⟨isChat, -⟩ | ⟨text, -⟩
        · cases plain.symm.trans isChat
        · exact text
      next back =>
        obtain ⟨text, kept⟩ := sent.resolve_left back
        exact ⟨text, fun want => (kept want).2⟩
    · rintro ⟨model, entries, rest⟩
      split at rest
      next front =>
        refine ⟨request.mpr entries, blocking.mpr ⟨model, ?_⟩, messages.mpr ⟨model, .inl front.1⟩,
          chat.mpr ⟨model, .inl front⟩, stream.mpr ⟨model, .inl front⟩⟩
        cases isChat : cr.isChat with
        | true => exact .inl ⟨rfl, front.1⟩
        | false => exact .inr ⟨rest isChat, nofun⟩
      next back =>
        obtain ⟨text, kept⟩ := rest
        exact ⟨request.mpr entries, blocking.mpr ⟨model, .inr ⟨text, fun _ => entries⟩⟩,
          messages.mpr ⟨model, .inr text⟩, chat.mpr ⟨model, .inr ⟨text, fun want => ⟨entries want, kept want⟩⟩⟩,
          stream.mpr ⟨model, .inr text⟩⟩

open SameAnswer in
theorem reports_text : Reports server { messages := [] } (generated [0]) := by
  refine (reports_iff server plainJson_lawful { messages := [] } (generated [0])).mpr ⟨by decide, fun _ => ?_, [], rfl, ?_⟩
  · simp [generated, Reportable, server]
    decide
  · rw [if_neg (by simp [CallInFront])]
    refine ⟨by decide, fun _ => .inr ?_⟩
    simp [generated, server, ChatRequest.toolsEnabled]
    decide

namespace Reporting

/-- The token 0 is the first byte of a longer character. -/
def byteTokens : Tokenizer :=
  { impl := .spm { idToToken := [.ofAscii "<0xE2>"], specialIds := [], byteTokenValue := [(0, 0xE2)] } }

def byteServer : Server := { SameAnswer.server with tok := byteTokens }

end Reporting

open SameAnswer Reporting in
/-- A text that the length limit cuts off inside a character cannot be reported. -/
theorem reports_fails_at_half_character : ¬Reports byteServer { messages := [] } (generated [0]) := by
  intro h
  have half : ¬Valid (byteTokens.tokenText 0) := by decide
  have entries := (@requestLogprobs_reports byteServer (generated [0]) plainJson_lawful).mp h.request rfl
  exact half (entries _ List.mem_cons_self).1

end Mlxforge
