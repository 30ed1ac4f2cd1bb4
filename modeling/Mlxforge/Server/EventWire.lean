import Mlxforge.Json.StoredForm
import Mlxforge.Lib.EventStream
import Mlxforge.Server.Anthropic
import Mlxforge.Server.SameAnswer
import Mlxforge.Server.ToolCallText

/-!
The bytes of a streamed response, and what a client reads from them, however they arrive and wherever they end.
-/

namespace Mlxforge

open EventStream (Event Reader OneLine)
open Json (Fits InRange)

def sseFrame (js : JsonLib) (payload : Json) : Except Exn Bytes := do
  return .ofAscii "data: " ++ (← js.dump payload.sorted) ++ .ofAscii "\n\n"

def kSseDone : Bytes := .ofAscii "data: [DONE]\n\n"

def sseEvent (js : JsonLib) (name : String) (payload : Json) : Except Exn Bytes := do
  return .ofAscii "event: " ++ .ofAscii name ++ .ofAscii "\ndata: " ++ (← js.dump payload.sorted) ++ .ofAscii "\n\n"

namespace Server

variable (sv : Server)

/-- What `stream_chat` has written when it ends, by itself or by an exception. -/
def chatBody (allowTools : Bool) (r : Generated) : Except Exn Bytes := do
  let (frames, thrown) := sv.streamChat allowTools r
  let sent ← frames.mapM (sseFrame sv.js)
  return sent.flatten ++ if thrown.isNone then kSseDone else []

/-- The events that `stream_messages` sends, and the exception that cut the stream off. -/
def streamEvents (allowTools : Bool) (r : Generated) : List SseEvent × Option Exn :=
  let (payloads, thrown) := sv.streamMessages allowTools r
  ((sv.messageEvents allowTools r).1.take payloads.length, thrown)

def messageBody (allowTools : Bool) (r : Generated) : Except Exn Bytes := do
  let sent ← (sv.streamEvents allowTools r).1.mapM fun event => sseEvent sv.js event.1 event.2
  return sent.flatten

end Server

/-! ### Clients -/

/-- The events in the chunks that the network delivers. -/
def arrived (chunks : List Bytes) : List Event :=
  (chunks.foldl (fun (read : Reader × List Event) chunk =>
    ((read.1.feed chunk).1, read.2 ++ (read.1.feed chunk).2)) ({}, [])).2

theorem arrived_eq (chunks : List Bytes) : arrived chunks = Reader.events chunks.flatten := by
  rw [arrived, Reader.feed_flatten, Reader.events]

def doneData : Bytes := .ofAscii "[DONE]"

/-- A chat client reads chunks up to `[DONE]`, and reports whether it has come. -/
def readChunks (js : JsonLib) : List Event → Except Exn (List Json × Bool)
  | [] => .ok ([], false)
  | e :: es =>
    if e.data = doneData then .ok ([], true)
    else do
      let chunk ← js.parse e.data
      let (more, done) ← readChunks js es
      return (chunk :: more, done)

/-- A client of the messages stream reads the name and the payload of every event. -/
def readMessages (js : JsonLib) (es : List Event) : Except Exn (List (Bytes × Json)) :=
  es.mapM fun e => do return (e.name, ← js.parse e.data)

/-! ### Frames -/

section
variable {js : JsonLib} {float : Bytes → Option Rat} {payload : Json}

theorem oneLine_of_printable {t : Bytes} (h : Json.Printable t) : OneLine t := by
  intro b hb
  have printable := h b hb
  constructor <;> rintro rfl <;> exact absurd printable (by decide)

theorem kSseDone_eq : kSseDone = Event.frame ⟨[], doneData⟩ := by decide

theorem done_plain : Event.Plain ⟨[], doneData⟩ := ⟨nofun, by decide⟩

/-- The text of a payload that can be sent. -/
theorem dump_text (std : js.Standard float) (fits : Fits float payload) (clean : payload.clean = true) :
    ∃ t, js.dump payload.sorted = .ok t ∧ OneLine t ∧ js.parse t = .ok payload.sorted := by
  obtain ⟨t, ok, -⟩ := (Json.dump_spec std.ascii payload.sorted).1 (Json.clean_sorted payload clean)
  exact ⟨t, ok, oneLine_of_printable (Json.printable_dump std.writes fits.stored ok), std.parse_dump fits.stored ok⟩

theorem data_eq : Bytes.ofAscii "data: " = EventStream.fieldLine EventStream.dataField [] := by decide

theorem blank_eq : Bytes.ofAscii "\n\n" = [EventStream.lf, EventStream.lf] := by decide

theorem sseFrame_ok {t : Bytes} (ok : js.dump payload.sorted = .ok t) :
    sseFrame js payload = .ok (Event.frame ⟨[], t⟩) := by
  rw [sseFrame, ok, ok_bind, data_eq, blank_eq]
  simp [Event.frame, Event.fields, Event.nameLine, EventStream.fieldLine, pure, Except.pure]

theorem sseEvent_ok {name : String} {t : Bytes} (some : Bytes.ofAscii name ≠ ([] : Bytes))
    (ok : js.dump payload.sorted = .ok t) : sseEvent js name payload = .ok (Event.frame ⟨Bytes.ofAscii name, t⟩) := by
  have event : Bytes.ofAscii "event: " = EventStream.fieldLine EventStream.eventField [] := by decide
  have data : Bytes.ofAscii "\ndata: " = EventStream.lf :: EventStream.fieldLine EventStream.dataField [] := by decide
  rw [sseEvent, ok, ok_bind, event, data, blank_eq]
  simp [Event.frame, Event.fields, Event.nameLine, EventStream.fieldLine, some, pure, Except.pure]

end

end Mlxforge
