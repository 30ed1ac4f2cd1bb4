import Mlxforge.Server.MessageProtocol

/-!
The messages stream as a whole: on the wire it is a run of the protocol that ends exactly when the stream does, and what a
client puts together of it is the blocking response unless a tool call hides behind a tag.
-/

namespace Mlxforge

open EventStream (Event Reader)
open Json (Fits InRange sorted)
open Utf8 (Valid)
open MessageStream MessageClient

variable {float : Bytes → Option Rat} {sv : Server} {tools : Bool} {r : Generated}

/-! ### What has been sent -/

theorem Server.sendFrames_thrown {thrown : Option Exn} {frames : List Json}
    (whole : (sv.sendFrames thrown frames).1.length = frames.length) : (sv.sendFrames thrown frames).2 = thrown := by
  induction frames with
  | nil => rfl
  | cons frame frames ih =>
    unfold sendFrames at whole ⊢
    split at whole
    · exact ih (Nat.succ_injective whole)
    · cases whole

/-- What is sent is a prefix of the events, and all of them if nothing was thrown. -/
theorem streamEvents_sent (sv : Server) (tools : Bool) (r : Generated) :
    (sv.streamEvents tools r).1 <+: (sv.messageEvents tools r).1 ∧
      ((sv.streamEvents tools r).2 = none ↔
        (sv.streamEvents tools r).1 = (sv.messageEvents tools r).1 ∧ (sv.messageEvents tools r).2 = none) := by
  have cut := sv.sendFrames_cut (sv.messageEvents tools r).2 ((sv.messageEvents tools r).1.map (·.2))
  have some : (sv.streamMessages tools r).1.length ≤ (sv.messageEvents tools r).1.length := by
    simpa [Server.streamMessages] using cut.length_le
  have sent : (sv.streamEvents tools r).1 = (sv.messageEvents tools r).1.take (sv.streamMessages tools r).1.length := rfl
  have thrown : (sv.streamEvents tools r).2 = (sv.streamMessages tools r).2 := rfl
  rw [sent, thrown]
  have length_sent : (sv.streamMessages tools r).1.length = (sv.messageEvents tools r).1.length ↔
      (sv.streamMessages tools r).1.length = ((sv.messageEvents tools r).1.map (·.2)).length := by rw [List.length_map]
  refine ⟨List.take_prefix _ _, fun through => ?_, fun all => ?_⟩
  · have all := congrArg List.length (Server.sendFrames_frames through)
    refine ⟨by rw [length_sent.mpr all, List.take_length], ?_⟩
    rw [← through]
    exact (Server.sendFrames_thrown all).symm
  · obtain ⟨whole, through⟩ := all
    have length := congrArg List.length whole
    rw [List.length_take, Nat.min_eq_left some] at length
    exact (Server.sendFrames_thrown (length_sent.mp length)).trans through

/-! ### The protocol -/

theorem step_ended {client : MessageClient} (ended : client.isEnded = true) (event : MessageEvent) :
    client.step event = none := by
  cases client <;> first | rfl | cases ended

section
variable {f : Json → Json} (rekeys : Json.Rekeys f)

include rekeys

/-- A client accepts all that is meant to be sent, and is at the end exactly if nothing is thrown. -/
theorem messageEvents_run (sv : Server) (tools : Bool) (r : Generated) :
    ∃ client, run .waiting ((sv.messageEvents tools r).1.map (delivered f)) = some client ∧
      (client.isEnded = true ↔ (sv.messageEvents tools r).2 = none) := by
  have started : receive .waiting (delivered f (sv.startEvent r)) =
      some (.between (f (startMessage (sv.nextId "msg_") sv.model r.promptTokens)) []) := by
    rw [receive, delivered, Server.startEvent, readEvent_messageStart rekeys]
    rfl
  obtain ⟨texts, -, eq, -⟩ | ⟨calls, -, -, -, -, eq⟩ | ⟨e, -, -, eq⟩ := messageEvents_cases sv tools r
  · rw [eq, List.map_cons, run_cons, started, Option.bind_some, run_textEvents rekeys]
    exact ⟨_, rfl, by simp [isEnded]⟩
  · rw [eq, List.map_cons, run_cons, started, Option.bind_some, run_callsEvents rekeys]
    exact ⟨_, rfl, by simp [isEnded]⟩
  · rw [eq, List.map_cons, run_cons, started]
    exact ⟨_, rfl, by simp [isEnded]⟩

/-- Of whatever comes of a stream, a client accepts it, and is at the end exactly if that is a whole stream. -/
theorem streamEvents_run {some : List SseEvent} (cut : some <+: (sv.streamEvents tools r).1) :
    ∃ client, run .waiting (some.map (delivered f)) = .some client ∧
      (client.isEnded = true ↔ some = (sv.streamEvents tools r).1 ∧ (sv.streamEvents tools r).2 = none) := by
  obtain ⟨sent, finished⟩ := streamEvents_sent sv tools r
  obtain ⟨last, ran, ended⟩ := messageEvents_run rekeys sv tools r
  obtain ⟨more, eq⟩ := cut.trans sent
  have whole := ran
  rw [← eq, List.map_append, run_append] at whole
  obtain ⟨client, here, onward⟩ := Option.bind_eq_some_iff.mp whole
  refine ⟨client, here, fun atEnd => ?_, fun ⟨all, through⟩ => ?_⟩
  · cases more with
    | nil =>
      rw [List.append_nil] at eq
      have same : client = last := Option.some.inj onward
      have unthrown := ended.mp (same ▸ atEnd)
      have all : (sv.streamEvents tools r).1 = some := (eq ▸ sent).eq_of_length_le cut.length_le
      exact ⟨all.symm, finished.mpr ⟨all.trans eq, unthrown⟩⟩
    | cons event more =>
      rw [List.map_cons, run_cons, receive] at onward
      obtain ⟨next, stepped, -⟩ := Option.bind_eq_some_iff.mp onward
      obtain ⟨_, -, stepped⟩ := Option.bind_eq_some_iff.mp stepped
      cases (step_ended atEnd _).symm.trans stepped
  · obtain ⟨allSent, unthrown⟩ := finished.mp through
    rw [all, allSent, ran] at here
    exact Option.some.inj here ▸ ended.mpr unthrown

end

/-! ### On the wire -/

theorem splitOn_length (b : UInt8) (s : Bytes) : (s.splitOn b).length ≤ s.length + 1 := by
  induction s with
  | nil => simp
  | cons c s ih =>
    rw [List.splitOn_cons_eq_if_modifyHead]
    split <;> simp <;> omega

theorem callsInParts_length {js : JsonLib} {parts : List Bytes} {calls : List ToolCall}
    (h : callsInParts js parts = .ok calls) : calls.length ≤ parts.length := by
  induction parts generalizing calls with
  | nil =>
    cases h
    exact le_rfl
  | cons part parts ih =>
    unfold callsInParts at h
    split at h
    · obtain ⟨found, -, h⟩ := bind_ok h
      obtain ⟨more, ok, same⟩ := bind_ok h
      cases pure_ok same
      have rest := ih ok
      have one : found.toList.length ≤ 1 := by cases found <;> simp
      rw [List.length_append, List.length_cons]
      omega
    · exact (ih h).trans (Nat.le_succ _)
    · cases h

/-- There are no more calls than the text has room for. -/
theorem parseToolCalls_length {js : JsonLib} {text : Bytes} {calls : List ToolCall}
    (h : parseToolCalls js text = .ok calls) : calls.length ≤ text.length + 1 := by
  have trimmed (s : Bytes) : (trim s).length ≤ s.length :=
    ((List.rdropWhile_prefix _ _).length_le).trans (List.length_dropWhile_le _ _)
  have short : (callText text).length ≤ text.length := by
    unfold callText
    dsimp only
    split
    · have inner := trimmed ((trim text).drop pyTag.length)
      have outer := trimmed text
      rw [List.length_drop] at inner
      omega
    · exact trimmed text
  unfold parseToolCalls at h
  dsimp only at h
  split at h
  · cases h
    exact Nat.zero_le _
  split at h
  · obtain ⟨found, -, same⟩ := bind_ok h
    cases pure_ok same
    cases found <;> simp
  · have parts : (semicolonParts (callText text)).length ≤ (callText text).length + 1 := by
      unfold semicolonParts
      dsimp only
      split
      · rw [List.length_dropLast]
        exact (Nat.sub_le _ _).trans (splitOn_length _ _)
      · exact splitOn_length _ _
    have found := callsInParts_length h
    omega
  · cases h

theorem inRange_of_le {n m : Nat} (h : InRange m) (le : n ≤ m) : InRange n := by
  unfold InRange at *
  omega

/-- The payload can be held, and the name is a line that is not empty. -/
def Sendable (float : Bytes → Option Rat) (event : SseEvent) : Prop :=
  Fits float event.2 ∧ Bytes.ofAscii event.1 ≠ ([] : Bytes) ∧ EventStream.OneLine (Bytes.ofAscii event.1)

theorem Sendable.of_fits {name : String} {payload : Json} (fits : Fits float payload)
    (named : Bytes.ofAscii name ≠ ([] : Bytes) ∧ EventStream.OneLine (Bytes.ofAscii name)) :
    Sendable float (name, payload) := ⟨fits, named⟩

theorem closing_sendable (count : InRange r.ids.length) (textOpen : Bool) (reason : Bytes) :
    ∀ event ∈ closing textOpen reason r.ids.length, Sendable float event := by
  have zero : InRange 0 := ⟨by decide, by decide⟩
  have last : ∀ event ∈ [("message_delta", makeMessageDelta reason r.ids.length), ("message_stop", messageStop)],
      Sendable float event := by
    rw [List.forall_mem_cons, List.forall_mem_singleton]
    exact ⟨.of_fits (by simp [makeMessageDelta, count]) (by decide), .of_fits (by simp [messageStop]) (by decide)⟩
  cases textOpen
  · exact last
  · exact List.forall_mem_cons.mpr ⟨.of_fits (by simp [makeContentBlockStop, zero]) (by decide), last⟩

theorem messageEvents_sendable (prompt : InRange r.promptTokens) (count : InRange r.ids.length)
    (room : InRange ((r.text sv.tok).length + 1 : Nat)) :
    ∀ event ∈ (sv.messageEvents tools r).1, Sendable float event := by
  have zero : InRange 0 := ⟨by decide, by decide⟩
  have start : Sendable float (sv.startEvent r) :=
    .of_fits (by simp [makeMessageStart, anthropicUsage, Json.fits_arr, prompt, zero]) (by decide)
  have opening : Sendable float ("content_block_start", makeContentBlockStart 0 (textBlock [])) :=
    .of_fits (by simp [makeContentBlockStart, textBlock, zero]) (by decide)
  obtain ⟨texts, -, eq, -⟩ | ⟨calls, -, parsed, -, -, eq⟩ | ⟨e, -, -, eq⟩ := messageEvents_cases sv tools r
  · have deltas : ∀ event ∈ texts.map fun text => ("content_block_delta", makeTextDelta 0 text), Sendable float event := by
      rw [List.forall_mem_map]
      exact fun text _ => .of_fits (by simp [makeTextDelta, zero]) (by decide)
    rw [eq, textEvents, shown]
    refine List.forall_mem_cons.mpr ⟨start, List.forall_mem_append.mpr ⟨?_, List.forall_mem_append.mpr ⟨?_, ?_⟩⟩⟩
    · split
      · exact List.forall_mem_nil _
      · exact List.forall_mem_cons.mpr ⟨opening, deltas⟩
    · split
      · exact List.forall_mem_singleton.mpr opening
      · exact List.forall_mem_nil _
    · exact closing_sendable count true _
  · have few := parseToolCalls_length parsed
    rw [eq, callsEvents]
    refine List.forall_mem_cons.mpr ⟨start, List.forall_mem_append.mpr ⟨?_, closing_sendable count false _⟩⟩
    intro event he
    obtain ⟨block, hb, he⟩ := List.mem_flatten.mp he
    obtain ⟨i, bound, rfl⟩ := List.mem_mapIdx.mp hb
    have index : InRange i := inRange_of_le room (by omega)
    have each : ∀ event ∈ callEvents i calls[i], Sendable float event := by
      simp only [callEvents, List.forall_mem_cons]
      exact ⟨.of_fits (by simp [makeContentBlockStart, toolUseBlock, index]) (by decide),
        .of_fits (by simp [makeInputJsonDelta, index]) (by decide),
        .of_fits (by simp [makeContentBlockStop, index]) (by decide), List.forall_mem_nil _⟩
    exact each event he
  · rw [eq]
    exact List.forall_mem_singleton.mpr start

/-- An event on the wire stands for an event of the stream. -/
def Stands (js : JsonLib) (e : Event) (event : SseEvent) : Prop :=
  e.Plain ∧ e.name = Bytes.ofAscii event.1 ∧ js.parse e.data = .ok event.2.sorted

theorem sseEvents_ok (std : sv.js.Standard float) {events : List SseEvent} (sendable : ∀ event ∈ events, Sendable float event)
    (clean : ∀ event ∈ events, event.2.clean = true) :
    ∃ es : List Event, (events.mapM fun event => sseEvent sv.js event.1 event.2) = .ok (es.map Event.frame) ∧
      List.Forall₂ (Stands sv.js) es events := by
  induction events with
  | nil => exact ⟨[], rfl, .nil⟩
  | cons event events ih =>
    rw [List.forall_mem_cons] at sendable clean
    obtain ⟨es, sent, stand⟩ := ih sendable.2 clean.2
    obtain ⟨fits, named, line⟩ := sendable.1
    obtain ⟨t, ok, oneLine, parsed⟩ := dump_text std fits clean.1
    refine ⟨⟨Bytes.ofAscii event.1, t⟩ :: es, ?_, .cons ⟨⟨line, oneLine⟩, rfl, parsed⟩ stand⟩
    rw [List.mapM_cons, sseEvent_ok named ok, sent]
    rfl

theorem stands_plain {js : JsonLib} {es : List Event} {events : List SseEvent} (stand : List.Forall₂ (Stands js) es events) :
    ∀ e ∈ es, e.Plain := by
  induction stand with
  | nil => exact List.forall_mem_nil _
  | cons here _ ih => exact List.forall_mem_cons.mpr ⟨here.1, ih⟩

theorem readMessages_stands {js : JsonLib} {es : List Event} {events : List SseEvent}
    (stand : List.Forall₂ (Stands js) es events) : readMessages js es = .ok (events.map (delivered sorted)) := by
  induction stand with
  | nil => rfl
  | cons here _ ih =>
    rw [readMessages] at ih ⊢
    rw [List.mapM_cons, here.2.2, ih, here.2.1]
    rfl

/-- However the bytes of a messages stream arrive and wherever they end, they read as a run of the protocol, which is at
its end exactly if all bytes have come of a stream that was not cut off. -/
theorem message_client_reads (std : sv.js.Standard float) (tools : Bool) (r : Generated) (prompt : InRange r.promptTokens)
    (count : InRange r.ids.length) (room : InRange ((r.text sv.tok).length + 1 : Nat)) :
    ∃ body, sv.messageBody tools r = .ok body ∧ ∀ chunks : List Bytes, chunks.flatten <+: body →
      ∃ seen client, readMessages sv.js (arrived chunks) = .ok seen ∧ run .waiting seen = some client ∧
        (client.isEnded = true ↔ chunks.flatten = body ∧ (sv.streamEvents tools r).2 = none) := by
  obtain ⟨inside, -⟩ := streamEvents_sent sv tools r
  have clean : ∀ event ∈ (sv.streamEvents tools r).1, event.2.clean = true := by
    have sent := Server.sendFrames_clean std (sv.messageEvents tools r).2 ((sv.messageEvents tools r).1.map (·.2))
    have cut := sv.sendFrames_cut (sv.messageEvents tools r).2 ((sv.messageEvents tools r).1.map (·.2))
    have payloads : (sv.streamEvents tools r).1.map (·.2) = (sv.streamMessages tools r).1 := by
      rw [show (sv.streamEvents tools r).1 = (sv.messageEvents tools r).1.take (sv.streamMessages tools r).1.length from rfl,
        List.map_take]
      exact (List.prefix_iff_eq_take.mp cut).symm
    intro event he
    have here : event.2 ∈ (sv.streamMessages tools r).1 := payloads ▸ List.mem_map_of_mem he
    exact sent event.2 here
  obtain ⟨es, sent, stand⟩ := sseEvents_ok std
    (fun event he => messageEvents_sendable prompt count room event (inside.subset he)) clean
  have body : sv.messageBody tools r = .ok (es.flatMap Event.frame) := by
    rw [Server.messageBody, sent, ok_bind, List.flatMap_def]
    rfl
  have plain := stands_plain stand
  refine ⟨_, body, fun chunks cut => ?_⟩
  obtain ⟨whole, rest, eq, events, -, all⟩ := Reader.events_of_prefix plain cut
  have whole_iff : chunks.flatten = es.flatMap Event.frame ↔ whole = es := by
    constructor
    · intro same
      rw [same, Reader.events, Reader.feed_frames plain] at events
      exact events.symm
    · intro same
      rw [same] at eq
      exact all (List.self_eq_append_right.mp eq)
  have come : whole = es.take whole.length := by rw [eq, List.take_left]
  have stood := List.forall₂_take whole.length stand
  rw [← come] at stood
  obtain ⟨client, ran, ended⟩ := streamEvents_run Json.rekeys_sorted (List.take_prefix whole.length (sv.streamEvents tools r).1)
  rw [arrived_eq, events, whole_iff]
  refine ⟨_, client, readMessages_stands stood, ran, ended.trans (and_congr_left' ?_)⟩
  have lengths := stand.length_eq
  constructor
  · intro same
    have length := congrArg List.length same
    rw [List.length_take, ← lengths, eq, List.length_append] at length
    have none : rest.length = 0 := by omega
    rw [eq, List.eq_nil_of_length_eq_zero none, List.append_nil]
  · intro same
    rw [same, lengths, List.take_length]

open ToolCallRoundTrip SameAnswer in
theorem message_client_reads_all : ∃ body seen client,
    ({ server with js := readerJson } : Server).messageBody false (generated [0, 0]) = .ok body ∧
      readMessages readerJson (arrived [body]) = .ok seen ∧ run .waiting seen = some client ∧ client.isEnded = true := by
  obtain ⟨body, written, reads⟩ := @message_client_reads _ { server with js := readerJson } readerJson_standard false
    (generated [0, 0]) ⟨by decide, by decide⟩ ⟨by decide, by decide⟩ ⟨by decide +kernel, by decide +kernel⟩
  have whole : ([body] : List Bytes).flatten = body := by simp
  obtain ⟨seen, client, read, ran, ended⟩ := reads [body] (by rw [whole])
  have unbroken : (({ server with js := readerJson } : Server).streamEvents false (generated [0, 0])).2 = none := by
    decide +kernel
  exact ⟨body, seen, client, written, read, ran, ended.mpr ⟨whole, unbroken⟩⟩

/-! ### The message put together -/

/-- A client that goes through the whole stream has the message of the blocking response. -/
def MessagesAgree (sv : Server) (cr : ChatRequest) (r : Generated) : Prop :=
  ∃ response events client, sv.runBlockingMessages cr r = .ok response ∧ sv.streamEvents cr.toolsEnabled r = (events, none) ∧
    run .waiting (events.map (delivered id)) = some client ∧ client.message sv.js = .ok response

theorem Json.assign_object (key : String) (v : Json) (fields : List (String × Json)) :
    (Json.object fields).assign key v =
      .object (fields.map fun f => if Bytes.ofAscii f.1 = .ofAscii key then (f.1, v) else f) := by
  rw [object, object, assign, List.map_map, List.map_map]
  congr 1
  refine List.map_congr_left fun f _ => ?_
  dsimp only [Function.comp]
  split <;> rfl

section
variable {js : JsonLib} {msg model reason : Bytes} {p n : Int}

/-- The start of a message with the rest filled in. -/
theorem message_ended {blocks : List Block} {content : List Json} (finished : blocks.mapM (Block.finish js) = .ok content) :
    message js (.ended (startMessage msg model p) blocks (.str reason) .null (.int n)) =
      .ok (makeMessageResponse msg model content reason p n) := by
  have usage : (startMessage msg model p).find? "usage" = some (anthropicUsage p 0) := by simp +decide [startMessage]
  rw [message, finished, ok_bind, usage]
  simp +decide [startMessage, makeMessageResponse, anthropicUsage, Json.assign_object, pure, Except.pure]

theorem finish_text (text : Bytes) : Block.finish js { start := textBlock [], text } = .ok (textBlock text) := by
  have type : (textBlock []).str? "type" = some (.ofAscii "text") := textBlock_type Json.rekeys_id []
  have other : (some (Bytes.ofAscii "text") : Option Bytes) ≠ some (.ofAscii "tool_use") := by decide
  have start : (textBlock []).str? "text" = some [] := by decide +kernel
  rw [Block.finish, type, if_neg other, start]
  simp +decide [textBlock, Json.assign_object, Json.text]

theorem finish_call (i : Nat) {call : ToolCall} {input : Json} (parsed : js.parse call.arguments = .ok input) :
    Block.finish js (callBlock id i call) = .ok (toolUseBlock i call.name input) := by
  have type : (toolUseBlock i call.name (.object [])).str? "type" = some (.ofAscii "tool_use") :=
    toolUseBlock_type Json.rekeys_id i call.name _
  rw [Block.finish, callBlock, id, type, if_pos rfl, parsed, ok_bind]
  simp +decide [toolUseBlock, Json.assign_object, pure, Except.pure]

theorem makeMessageResponse_reason (content : List Json) :
    (makeMessageResponse msg model content reason p n).str? "stop_reason" = some reason := by
  simp +decide [Json.str?, makeMessageResponse]

theorem anthropicStopReason_ne (workerReason : Bytes) : anthropicStopReason workerReason ≠ .ofAscii "tool_use" := by
  unfold anthropicStopReason
  split <;> decide

/-- The blocks put together are those of the blocking response. -/
theorem finish_calls {calls : List ToolCall} (parsed : ∀ call ∈ calls, ∃ input, js.parse call.arguments = .ok input)
    (i : Nat) : (calls.mapIdx fun k => callBlock id (i + k)).mapM (Block.finish js) = makeToolUseBlocksFrom js i calls := by
  induction calls generalizing i with
  | nil => rfl
  | cons call calls ih =>
    rw [List.forall_mem_cons] at parsed
    obtain ⟨⟨input, here⟩, rest⟩ := parsed
    have next := ih rest (i + 1)
    have chosen : toolInput js call.arguments = .ok input := by rw [toolInput, here]
    simp only [Nat.add_assoc, Nat.add_comm 1] at next
    rw [List.mapIdx_cons, List.mapM_cons, Nat.add_zero, finish_call i here, makeToolUseBlocksFrom, chosen, ok_bind, ok_bind,
      next]

end

section
variable {cr : ChatRequest} {calls : List ToolCall}

theorem runBlockingMessages_text (found : sv.calls cr.toolsEnabled (r.text sv.tok) = .ok []) :
    sv.runBlockingMessages cr r = .ok (makeMessageResponse (sv.nextId "msg_") sv.model [textBlock (r.text sv.tok)]
      (anthropicStopReason r.finishReason) r.promptTokens r.ids.length) := by
  unfold Generated.text at *
  rw [Server.runBlockingMessages, found]
  rfl

theorem runBlockingMessages_calls (some : calls ≠ []) (found : sv.calls cr.toolsEnabled (r.text sv.tok) = .ok calls)
    {blocks : List Json} (built : makeToolUseBlocks sv.js calls = .ok blocks) :
    sv.runBlockingMessages cr r = .ok (makeMessageResponse (sv.nextId "msg_") sv.model blocks (.ofAscii "tool_use")
      r.promptTokens r.ids.length) := by
  have nonempty : ¬calls.isEmpty = true := by simpa using some
  unfold Generated.text at *
  rw [Server.runBlockingMessages, found, ok_bind, if_neg nonempty, built]
  rfl

theorem startEvent_received (sv : Server) (r : Generated) :
    receive .waiting (delivered id (sv.startEvent r)) =
      some (.between (startMessage (sv.nextId "msg_") sv.model r.promptTokens) []) := by
  rw [receive, delivered, Server.startEvent, readEvent_messageStart Json.rekeys_id]
  rfl

/-- The stream goes through exactly if everything it sends is UTF-8. -/
theorem streamEvents_whole_iff (lawful : sv.js.Lawful) (found : sv.calls tools (r.text sv.tok) = .ok calls) :
    (sv.streamEvents tools r).2 = none ↔ Valid sv.model ∧ (CallInFront sv r calls ∨ Valid (r.text sv.tok)) := by
  rw [← streamMessages_reports lawful found]
  constructor
  · exact fun through => ⟨_, Prod.ext rfl through⟩
  · rintro ⟨sent, out⟩
    exact congrArg Prod.snd out

/-- A client's message of a stream with text. -/
theorem message_of_text (through : (sv.streamEvents tools r).2 = none)
    (front : ¬CallInFront sv r calls) (found : sv.calls tools (r.text sv.tok) = .ok calls) :
    ∃ client, run .waiting ((sv.streamEvents tools r).1.map (delivered id)) = some client ∧
      client.message sv.js = .ok (makeMessageResponse (sv.nextId "msg_") sv.model [textBlock (r.text sv.tok)]
        (anthropicStopReason r.finishReason) r.promptTokens r.ids.length) := by
  obtain ⟨all, -⟩ := (streamEvents_sent sv tools r).2.mp through
  obtain ⟨texts, joined, eq, -⟩ | ⟨calls', on, parsed, some, brace, -⟩ | ⟨e, on, thrown, -⟩ := messageEvents_cases sv tools r
  · have ran : run .waiting ((sv.streamEvents tools r).1.map (delivered id)) =
        some (.ended (startMessage (sv.nextId "msg_") sv.model r.promptTokens)
          [{ start := textBlock [], text := r.text sv.tok }] (.str (anthropicStopReason r.finishReason)) .null
          (.int r.ids.length)) := by
      rw [all, eq, List.map_cons, run_cons, startEvent_received, Option.bind_some, run_textEvents Json.rekeys_id, joined]
      rfl
    refine ⟨_, ran, message_ended ?_⟩
    rw [List.mapM_cons, finish_text]
    rfl
  · rw [Server.calls, if_pos on, parsed] at found
    obtain rfl := Except.ok.inj found
    exact absurd ⟨some, brace⟩ front
  · rw [Server.calls, if_pos on, thrown] at found
    cases found

/-- A client's message of a stream with tool calls. -/
theorem message_of_calls (lawful : sv.js.Lawful) (through : (sv.streamEvents tools r).2 = none)
    (front : CallInFront sv r calls) (found : sv.calls tools (r.text sv.tok) = .ok calls) {blocks : List Json}
    (built : makeToolUseBlocks sv.js calls = .ok blocks) :
    ∃ client, run .waiting ((sv.streamEvents tools r).1.map (delivered id)) = some client ∧
      client.message sv.js = .ok (makeMessageResponse (sv.nextId "msg_") sv.model blocks (.ofAscii "tool_use")
        r.promptTokens r.ids.length) := by
  obtain ⟨all, -⟩ := (streamEvents_sent sv tools r).2.mp through
  obtain ⟨on, parsed⟩ := calls_parsed front.1 found
  obtain ⟨-, -, -, off | nothing | other⟩ | ⟨calls', -, parsed', -, -, eq⟩ | ⟨e, -, thrown, -⟩ :=
    messageEvents_cases sv tools r
  · cases on.symm.trans off
  · exact absurd (Except.ok.inj (parsed.symm.trans nothing)) front.1
  · exact absurd front.2 other
  · obtain rfl := Except.ok.inj (parsed.symm.trans parsed')
    have ran : run .waiting ((sv.streamEvents tools r).1.map (delivered id)) =
        some (.ended (startMessage (sv.nextId "msg_") sv.model r.promptTokens) (calls.mapIdx (callBlock id))
          (.str (.ofAscii "tool_use")) .null (.int r.ids.length)) := by
      rw [all, eq, List.map_cons, run_cons, startEvent_received, Option.bind_some, run_callsEvents Json.rekeys_id]
      rfl
    have inputs : ∀ call ∈ calls, ∃ input, sv.js.parse call.arguments = .ok input := fun call hc => by
      obtain ⟨input, ok, -⟩ := (calls_parsedBy found call hc).arguments lawful
      exact ⟨input, ok⟩
    have finished := finish_calls inputs 0
    simp only [Nat.zero_add] at finished
    exact ⟨_, ran, message_ended (finished.trans built)⟩
  · cases parsed.symm.trans thrown

end

/-- Streaming and blocking give the same message exactly if the stream can be serialized and the output is no tool call,
or one that begins with a brace. -/
theorem messages_agree_iff (sv : Server) (lawful : sv.js.Lawful) (cr : ChatRequest) (r : Generated) :
    MessagesAgree sv cr r ↔ Valid sv.model ∧ ∃ calls, sv.calls cr.toolsEnabled (r.text sv.tok) = .ok calls ∧
      if calls = [] then Valid (r.text sv.tok) else ((r.text sv.tok).find? fun b => !isBlank b) = some 0x7B := by
  cases found : sv.calls cr.toolsEnabled (r.text sv.tok) with
  | error e =>
    refine iff_of_false ?_ (by simp)
    rintro ⟨response, -, -, ok, -⟩
    rw [Server.runBlockingMessages] at ok
    unfold Generated.text at found
    rw [found] at ok
    cases ok
  | ok calls =>
    have whole := streamEvents_whole_iff lawful found
    simp only [Except.ok.injEq, exists_eq_left']
    by_cases none : calls = []
    · subst none
      have front : ¬CallInFront sv r [] := fun front => front.1 rfl
      rw [if_pos rfl]
      constructor
      · rintro ⟨-, events, -, -, sent, -⟩
        obtain ⟨model, text⟩ := whole.mp (congrArg Prod.snd sent)
        exact ⟨model, text.resolve_left front⟩
      · rintro ⟨model, text⟩
        have through := whole.mpr ⟨model, .inr text⟩
        obtain ⟨client, ran, told⟩ := message_of_text through front found
        exact ⟨_, _, client, runBlockingMessages_text found, Prod.ext rfl through, ran, told⟩
    · rw [if_neg none]
      obtain ⟨blocks, built, -⟩ := makeToolUseBlocksFrom_clean lawful (calls_parsedBy found) 0
      have answer := runBlockingMessages_calls none found built
      constructor
      · rintro ⟨response, events, client, ok, sent, ran, told⟩
        obtain rfl := Except.ok.inj (answer.symm.trans ok)
        have through : (sv.streamEvents cr.toolsEnabled r).2 = .none := congrArg Prod.snd sent
        refine ⟨(whole.mp through).1, ?_⟩
        by_contra other
        have front : ¬CallInFront sv r calls := fun front => other front.2
        obtain ⟨client', ran', told'⟩ := message_of_text through front found
        rw [sent, ran] at ran'
        cases ran'
        have reasons := congrArg (Json.str? "stop_reason") (Except.ok.inj (told.symm.trans told'))
        rw [makeMessageResponse_reason, makeMessageResponse_reason] at reasons
        exact anthropicStopReason_ne r.finishReason (Option.some.inj reasons).symm
      · rintro ⟨model, brace⟩
        have front : CallInFront sv r calls := ⟨none, brace⟩
        have through := whole.mpr ⟨model, .inl front⟩
        obtain ⟨client, ran, told⟩ := message_of_calls lawful through front found built
        exact ⟨_, _, client, answer, Prod.ext rfl through, ran, told⟩

open SameAnswer in
theorem messages_agree_text : MessagesAgree server { messages := [] } (generated [0, 0]) :=
  (messages_agree_iff server plainJson_lawful { messages := [] } (generated [0, 0])).mpr
    ⟨by decide, [], rfl, by rw [if_pos rfl]; decide +kernel⟩

end Mlxforge
