import Mlxforge.Server.EventWire
import Mlxforge.Server.ToolCallRoundTrip

/-!
What a chat client has read of a stream: a prefix of the chunks, with a prefix of the generated text in them, and
`[DONE]` only when the whole response is there.
-/

namespace Mlxforge

open EventStream (Event Reader OneLine)
open Json (Fits InRange sorted contentIn)
open ChatStream (Content roleChunk contentChunk toolsChunk finalChunk chunk)

variable {float : Bytes → Option Rat}

/-! ### Chunks fit -/

namespace Json

@[simp] theorem fits_null : Fits float .null := .null

@[simp] theorem fits_str (s : Bytes) : Fits float (.str s) := .str s

@[simp] theorem fits_text (s : String) : Fits float (.text s) := .str _

@[simp] theorem fits_int (i : Int) : Fits float (.int i) ↔ InRange i := ⟨fun h => by cases h; assumption, .int⟩

@[simp] theorem fits_float (x : Rat) : Fits float (.float x) ↔ ∃ t, float t = some x :=
  ⟨fun h => by cases h; exact ⟨_, ‹_›⟩, fun ⟨_, read⟩ => .float read⟩

theorem fits_arr (items : List Json) : Fits float (.arr items) ↔ ∀ v ∈ items, Fits float v :=
  ⟨fun h => by cases h; assumption, .arr⟩

@[simp] theorem fits_object_nil : Fits float (object []) := .obj nofun

@[simp] theorem fits_object_cons (key : String) (v : Json) (rest : List (String × Json)) :
    Fits float (object ((key, v) :: rest)) ↔ Fits float v ∧ Fits float (object rest) := by
  constructor
  · intro h
    cases h with
    | obj each =>
      rw [List.map_cons, List.forall_mem_cons] at each
      exact ⟨each.1, .obj each.2⟩
  · rintro ⟨here, rest⟩
    cases rest with
    | obj each => exact .obj (List.forall_mem_cons.mpr ⟨here, each⟩)

end Json

/-- The log-probs in a record are numbers the library reads. -/
def TokenLogprob.Readable (float : Bytes → Option Rat) (lp : TokenLogprob Rat) : Prop :=
  (∃ t, float t = some lp.logprob) ∧ ∀ alt ∈ lp.top, ∃ t, float t = some alt.2

theorem bytesJson_fits (text : Bytes) : Fits float (bytesJson text) := by
  rw [bytesJson, Json.fits_arr, List.forall_mem_map]
  intro b _
  have small := b.toNat_lt
  exact .int ⟨by omega, by omega⟩

theorem logprobEntry_fits (tok : Tokenizer) (id : Int) {x : Rat} (read : ∃ t, float t = some x) :
    Fits float (logprobEntry tok id x) := by
  simp [logprobEntry, logprobFields, read, bytesJson_fits]

theorem tokenEntry_fits (tok : Tokenizer) {lp : TokenLogprob Rat} (read : lp.Readable float) :
    Fits float (tokenEntry tok lp) := by
  have tops : Fits float (.arr (lp.top.map fun alt => logprobEntry tok alt.1 alt.2)) := by
    rw [Json.fits_arr, List.forall_mem_map]
    exact fun alt halt => logprobEntry_fits tok alt.1 (read.2 alt halt)
  simp [tokenEntry, logprobFields, read.1, bytesJson_fits, tops]

theorem makeLogprobsContent_fits (tok : Tokenizer) {lps : List (TokenLogprob Rat)} (read : ∀ lp ∈ lps, lp.Readable float) :
    Fits float (makeLogprobsContent tok lps) := by
  rw [makeLogprobsContent, Json.fits_arr, List.forall_mem_map]
  exact fun lp hlp => tokenEntry_fits tok (read lp hlp)

theorem makeToolCalls_fits (calls : List ToolCall) : Fits float (makeToolCalls calls) := by
  rw [makeToolCalls, Json.fits_arr]
  intro v hv
  obtain ⟨i, _, rfl⟩ := List.mem_mapIdx.mp hv
  simp [toolCallJson]

namespace ChatStream

variable {sv : Server} {tools : Bool} {r : Generated}

theorem chunk_fits (created : InRange sv.created) {delta finish lp : Json} (hd : Fits float delta)
    (hf : Fits float finish) (hl : Fits float lp) : Fits float (chunk sv delta finish lp) := by
  have zero : InRange 0 := ⟨by decide, by decide⟩
  have choice : Fits float (.object ([("index", .int 0), ("delta", delta), ("finish_reason", finish)] ++
      if lp.isNull then [] else [("logprobs", .object [("content", lp)])])) := by
    split <;> simp [zero, hd, hf, hl]
  simpa [chunk, makeChatChunk, created, Json.fits_arr] using choice

/-- All chunks of a stream can be held and read. -/
theorem chatFrames_fits (created : InRange sv.created) (read : r.wantLp = true → ∀ lp ∈ r.emitted, lp.Readable float) :
    ∀ frame ∈ (sv.chatFrames tools r).1, Fits float frame := by
  have role : Fits float (roleChunk sv) := chunk_fits created (by simp) (by simp) (by simp)
  have final (finish : Bytes) : Fits float (finalChunk sv finish) := chunk_fits created (by simp) (by simp) (by simp)
  obtain ⟨parts, lost, content, eq, -⟩ | ⟨calls, -, -, -, -, eq⟩ | ⟨e, -, -, -, eq⟩ := chatFrames_cases sv tools r
  · rw [eq]
    refine List.forall_mem_cons.mpr ⟨role, List.forall_mem_append.mpr ⟨?_, by simpa using final _⟩⟩
    rw [List.forall_mem_map]
    intro part hp
    refine chunk_fits created (by simp) (by simp) ?_
    split
    next want =>
      refine makeLogprobsContent_fits sv.tok fun lp hlp => read want lp ?_
      have all := content.logprobs
      rw [Generated.logprobs, if_pos want] at all
      rw [← all]
      exact List.mem_append_left _ (List.mem_flatMap.mpr ⟨part, hp, hlp⟩)
    · exact .null
  · rw [eq]
    have calls : Fits float (toolsChunk sv calls) := chunk_fits created (by simp [makeToolCalls_fits]) (by simp) (by simp)
    simp [role, calls, final]
  · rw [eq]
    simpa using role

end ChatStream

/-! ### The text in the chunks -/

/-- Keys that differ are found in the ordered object as in the one written out. -/
theorem Json.find?_sorted {fields : List (String × Json)} (distinct : (fields.map fun f => Bytes.ofAscii f.1).Nodup)
    (key : String) : (sorted (object fields)).find? key = ((object fields).find? key).map sorted := by
  have found (fs : List (Bytes × Json)) : (sortedFields fs).lookup (.ofAscii key) =
      (fs.lookup (.ofAscii key)).map sorted := by
    induction fs with
    | nil => rfl
    | cons f fs ih =>
      obtain ⟨k, v⟩ := f
      rw [sortedFields, lookup_field, lookup_field, ih]
      split <;> rfl
  have keys : ((sortedFields (fields.map fun f => (Bytes.ofAscii f.1, f.2))).map (·.1)).Nodup := by
    rw [sortedFields_eq, List.map_map, List.map_map]
    exact distinct
  rw [object, sorted, find?, find?, lookup_storeFields keys, found]

namespace ChatStream

variable {sv : Server} {tools : Bool} {r : Generated}

theorem firstChoice_sorted (sv : Server) (delta finish lp : Json) :
    (chunk sv delta finish lp).sorted.firstChoice = (chunk sv delta finish lp).firstChoice.map sorted := by
  unfold chunk makeChatChunk Json.firstChoice
  rw [Json.find?_sorted (by simp +decide)]
  simp +decide [sorted, Json.sortedItems]

/-- Ordered keys do not change the text of a chunk. -/
theorem contentIn_sorted (sv : Server) (delta : List (String × Json)) (finish lp : Json)
    (distinct : (delta.map fun f => Bytes.ofAscii f.1).Nodup) :
    contentIn "delta" (chunk sv (.object delta) finish lp).sorted =
      contentIn "delta" (chunk sv (.object delta) finish lp) := by
  have logprobs : (if lp.isNull then [] else [("logprobs", Json.object [("content", lp)])]) = [] ∨
      ∃ v, (if lp.isNull then [] else [("logprobs", Json.object [("content", lp)])]) = [("logprobs", v)] := by
    split
    · exact .inl rfl
    · exact .inr ⟨_, rfl⟩
  have keys : (([("index", .int 0), ("delta", .object delta), ("finish_reason", finish)] ++
      if lp.isNull then [] else [("logprobs", .object [("content", lp)])] : List (String × Json)).map
      fun f => Bytes.ofAscii f.1).Nodup := by
    obtain none | ⟨v, one⟩ := logprobs
    · rw [none]
      simp +decide
    · rw [one]
      simp +decide
  unfold contentIn
  rw [firstChoice_sorted, chunk_firstChoice, Option.map_some, Option.bind_some, Option.bind_some,
    Json.find?_sorted keys]
  simp +decide only [List.cons_append, Json.find?_object_cons, if_true, if_false, Option.map_some, Option.bind_some]
  rw [Json.find?_sorted distinct]
  cases (Json.object delta).find? "content" with
  | none => rfl
  | some v => cases v <;> rfl

/-- The chunks together carry the generated text, or none of it when they carry tool calls. -/
theorem chatFrames_text (sv : Server) (tools : Bool) (r : Generated) :
    ((sv.chatFrames tools r).1.map sorted).flatMap (contentIn "delta") <+: r.text sv.tok := by
  have role : contentIn "delta" (roleChunk sv).sorted = [] := by
    rw [roleChunk, contentIn_sorted sv _ _ _ (by simp)]
    exact And.left <| roleChunk_says sv
  have final (finish : Bytes) : contentIn "delta" (finalChunk sv finish).sorted = [] := by
    rw [finalChunk, contentIn_sorted sv _ _ _ (by simp)]
    exact And.left <| finalChunk_says sv finish
  have content (wantLp : Bool) (part : Bytes × List (TokenLogprob Rat)) :
      contentIn "delta" (contentChunk sv wantLp part).sorted = part.1 := by
    rw [contentChunk, contentIn_sorted sv _ _ _ (by simp)]
    exact And.left <| contentChunk_says sv wantLp part
  rw [List.flatMap_map]
  obtain ⟨parts, lost, said, eq, -⟩ | ⟨calls, -, -, -, -, eq⟩ | ⟨e, -, -, -, eq⟩ := chatFrames_cases sv tools r
  · rw [eq, ← said.texts]
    simp [List.flatMap_map, role, final, content]
  · have calls : contentIn "delta" (toolsChunk sv calls).sorted = [] := by
      rw [toolsChunk, contentIn_sorted sv _ _ _ (by simp)]
      exact And.left <| toolsChunk_says sv calls
    rw [eq]
    simp [role, final, calls]
  · rw [eq]
    simp [role]

theorem chatFrames_objects (sv : Server) (tools : Bool) (r : Generated) :
    ∀ frame ∈ (sv.chatFrames tools r).1, frame.isObject = true := by
  obtain ⟨parts, lost, -, eq, -⟩ | ⟨calls, -, -, -, -, eq⟩ | ⟨e, -, -, -, eq⟩ := chatFrames_cases sv tools r
  · rw [eq]
    simp only [List.forall_mem_cons, List.forall_mem_append, List.forall_mem_map]
    exact ⟨rfl, fun _ _ => rfl, rfl, nofun⟩
  · rw [eq]
    simp only [List.forall_mem_cons]
    exact ⟨rfl, rfl, rfl, nofun⟩
  · rw [eq]
    exact List.forall_mem_singleton.mpr rfl

end ChatStream

/-! ### Reading the body -/

theorem Server.sendFrames_cut (sv : Server) (thrown : Option Exn) (frames : List Json) :
    (sv.sendFrames thrown frames).1 <+: frames := by
  induction frames with
  | nil => exact List.prefix_refl _
  | cons frame frames ih =>
    unfold sendFrames
    split
    · exact (List.prefix_cons_inj frame).mpr ih
    · exact List.nil_prefix

section
variable {sv : Server} (std : sv.js.Standard float)

include std

theorem Server.sendFrames_clean (thrown : Option Exn) (frames : List Json) :
    ∀ frame ∈ (sv.sendFrames thrown frames).1, frame.clean = true := by
  induction frames with
  | nil => nofun
  | cons frame frames ih =>
    unfold sendFrames
    split
    next t ok =>
      have clean : frame.clean = true := by
        by_contra dirty
        have refused := (Json.dump_spec std.ascii frame).2 (by simpa using dirty)
        cases refused.symm.trans ok
      exact List.forall_mem_cons.mpr ⟨clean, ih⟩
    · nofun

/-- An event stands for a chunk: its data is no `[DONE]`, and is read as the chunk. -/
def Carries (js : JsonLib) (e : Event) (frame : Json) : Prop :=
  e.Plain ∧ e.data ≠ doneData ∧ js.parse e.data = .ok frame.sorted

omit std in
theorem dump_object {num : Rat → Bytes} {j : Json} {t : Bytes} (object : j.isObject = true)
    (h : Json.dump num j.sorted = .ok t) : t.head? = some 0x7B := by
  cases j with
  | obj fields =>
    obtain ⟨texts, -, same⟩ := bind_ok h
    cases pure_ok same
    rfl
  | _ => cases object

theorem sseFrames_ok {frames : List Json} (fits : ∀ frame ∈ frames, Fits float frame)
    (clean : ∀ frame ∈ frames, frame.clean = true) (objects : ∀ frame ∈ frames, frame.isObject = true) :
    ∃ es : List Event, frames.mapM (sseFrame sv.js) = .ok (es.map Event.frame) ∧
      List.Forall₂ (Carries sv.js) es frames := by
  induction frames with
  | nil => exact ⟨[], rfl, .nil⟩
  | cons frame frames ih =>
    rw [List.forall_mem_cons] at fits clean objects
    obtain ⟨es, sent, carried⟩ := ih fits.2 clean.2 objects.2
    obtain ⟨t, ok, fitsLine, parsed⟩ := dump_text std fits.1 clean.1
    have other : t ≠ doneData := by
      rintro rfl
      have head := dump_object objects.1 ok
      revert head
      decide
    refine ⟨⟨[], t⟩ :: es, ?_, .cons ⟨⟨nofun, fitsLine⟩, other, parsed⟩ carried⟩
    rw [List.mapM_cons, sseFrame_ok ok, sent]
    rfl

omit std in
theorem carried_plain {js : JsonLib} {es : List Event} {frames : List Json}
    (carried : List.Forall₂ (Carries js) es frames) : ∀ e ∈ es, e.Plain := by
  induction carried with
  | nil => nofun
  | cons here _ ih => exact List.forall_mem_cons.mpr ⟨here.1, ih⟩

omit std in
theorem readChunks_carried {js : JsonLib} {es : List Event} {frames : List Json}
    (carried : List.Forall₂ (Carries js) es frames) (rest : List Event) :
    readChunks js (es ++ rest) = (readChunks js rest).map fun read => (frames.map sorted ++ read.1, read.2) := by
  induction carried with
  | nil => cases h : readChunks js rest <;> simp [h, Except.map]
  | cons here _ ih =>
    rw [List.cons_append, readChunks, if_neg here.2.1, here.2.2, ok_bind, ih]
    cases readChunks js rest <;> rfl

omit std in
theorem readChunks_end (js : JsonLib) : readChunks js [⟨[], doneData⟩] = .ok ([], true) := by
  rw [readChunks, if_pos rfl]

omit std in
theorem readChunks_open {js : JsonLib} {es whole : List Event} {frames : List Json}
    (carried : List.Forall₂ (Carries js) es frames) (cut : whole <+: es) :
    ∃ seen, readChunks js whole = .ok (seen, false) ∧ seen <+: frames.map sorted := by
  rw [List.prefix_iff_eq_take.mp cut]
  have some := readChunks_carried (List.forall₂_take whole.length carried) []
  rw [List.append_nil] at some
  refine ⟨_, some, ?_⟩
  rw [List.append_nil, List.map_take]
  exact List.take_prefix _ _

/-- However the bytes of a streamed chat arrive and wherever they end, they read as a prefix of the chunks that were
sent, with a prefix of the generated text in them; `[DONE]` is read exactly at the end of a stream that was not cut off,
and then all chunks have been. -/
theorem chat_client_reads (tools : Bool) (r : Generated) (created : InRange sv.created)
    (read : r.wantLp = true → ∀ lp ∈ r.emitted, lp.Readable float) :
    ∃ body, sv.chatBody tools r = .ok body ∧ ∀ chunks : List Bytes, chunks.flatten <+: body →
      ∃ seen done, readChunks sv.js (arrived chunks) = .ok (seen, done) ∧
        seen <+: (sv.streamChat tools r).1.map sorted ∧ seen.flatMap (contentIn "delta") <+: r.text sv.tok ∧
        (done = true ↔ chunks.flatten = body ∧ (sv.streamChat tools r).2 = none) ∧
        (done = true → seen = (sv.streamChat tools r).1.map sorted) := by
  rcases sentAll : sv.streamChat tools r with ⟨frames, thrown⟩
  have inside : frames <+: (sv.chatFrames tools r).1 := by
    have sent := sv.sendFrames_cut (sv.chatFrames tools r).2 (sv.chatFrames tools r).1
    rwa [show (sv.sendFrames (sv.chatFrames tools r).2 (sv.chatFrames tools r).1).1 = frames from
      congrArg Prod.fst sentAll] at sent
  have clean : ∀ frame ∈ frames, frame.clean = true := by
    have sent := Server.sendFrames_clean std (sv.chatFrames tools r).2 (sv.chatFrames tools r).1
    rwa [show (sv.sendFrames (sv.chatFrames tools r).2 (sv.chatFrames tools r).1).1 = frames from
      congrArg Prod.fst sentAll] at sent
  have texts {seen : List Json} (some : seen <+: frames.map sorted) :
      seen.flatMap (contentIn "delta") <+: r.text sv.tok :=
    ((some.trans (inside.map sorted)).flatMap _).trans (ChatStream.chatFrames_text sv tools r)
  obtain ⟨es, sent, carried⟩ := sseFrames_ok std
    (fun frame hf => ChatStream.chatFrames_fits created read frame (inside.subset hf)) clean
    fun frame hf => ChatStream.chatFrames_objects sv tools r frame (inside.subset hf)
  let last : List Event := if thrown.isNone then [⟨[], doneData⟩] else []
  have body : sv.chatBody tools r = .ok ((es ++ last).flatMap Event.frame) := by
    rw [Server.chatBody, sentAll]
    dsimp only
    rw [sent, ok_bind, List.flatMap_append, List.flatMap_def]
    cases thrown <;> simp [last, kSseDone_eq, pure, Except.pure]
  have plain : ∀ e ∈ es ++ last, e.Plain := by
    refine List.forall_mem_append.mpr ⟨carried_plain carried, ?_⟩
    cases thrown with
    | none => exact List.forall_mem_singleton.mpr done_plain
    | some e => exact List.forall_mem_nil _
  refine ⟨_, body, fun chunks cut => ?_⟩
  obtain ⟨whole, rest, eq, events, -, all⟩ := Reader.events_of_prefix plain cut
  rw [arrived_eq, events]
  have whole_iff : chunks.flatten = (es ++ last).flatMap Event.frame ↔ rest = [] := by
    refine ⟨fun same => ?_, all⟩
    rw [same, Reader.events, Reader.feed_frames plain] at events
    rw [← events] at eq
    exact List.self_eq_append_right.mp eq
  rw [whole_iff]
  by_cases finished : rest = [] ∧ thrown = none
  · obtain ⟨rfl, rfl⟩ := finished
    rw [List.append_nil] at eq
    have read : readChunks sv.js whole = .ok (frames.map sorted ++ [], true) := by
      rw [← eq, show last = [⟨[], doneData⟩] from rfl, readChunks_carried carried, readChunks_end]
      rfl
    rw [List.append_nil] at read
    exact ⟨_, _, read, List.prefix_refl _, texts (List.prefix_refl _), by simp, fun _ => rfl⟩
  · have short : whole <+: es := by
      refine List.prefix_of_prefix_length_le (eq ▸ List.prefix_append whole rest) (List.prefix_append es last) ?_
      have lengths := congrArg List.length eq
      rw [List.length_append, List.length_append] at lengths
      cases thrown with
      | none =>
        have some : rest ≠ [] := fun none => finished ⟨none, rfl⟩
        have := List.length_pos_of_ne_nil some
        simp only [last, Option.isNone_none, if_true, List.length_singleton] at lengths
        omega
      | some e =>
        simp only [last, Option.isNone_some, Bool.false_eq_true, if_false, List.length_nil] at lengths
        omega
    obtain ⟨seen, read, some⟩ := readChunks_open carried short
    exact ⟨seen, false, read, some, texts some, iff_of_false Bool.false_ne_true finished,
      fun ended => absurd ended Bool.false_ne_true⟩

end

open ToolCallRoundTrip SameAnswer in
theorem chat_client_reads_all : ∃ body seen,
    ({ server with js := readerJson } : Server).chatBody false (generated [0, 0]).quiet = .ok body ∧
      readChunks readerJson (arrived [body]) = .ok (seen, true) := by
  have small : InRange 0 := ⟨by decide, by decide⟩
  obtain ⟨body, written, reads⟩ := @chat_client_reads _ { server with js := readerJson } readerJson_standard false
    (generated [0, 0]).quiet small (fun on => Bool.noConfusion on)
  have whole : ([body] : List Bytes).flatten = body := by simp
  obtain ⟨seen, done, read, -, -, ended, -⟩ := reads [body] (by rw [whole])
  have unbroken : (({ server with js := readerJson } : Server).streamChat false (generated [0, 0]).quiet).2 = none := by
    decide +kernel
  have finished : done = true := ended.mpr ⟨whole, unbroken⟩
  exact ⟨body, seen, written, finished ▸ read⟩

end Mlxforge
