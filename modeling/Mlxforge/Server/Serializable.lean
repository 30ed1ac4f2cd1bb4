import Mlxforge.Server.ChatHandlers

/-!
Which responses can be serialized: everything the server adds is ASCII, so it is a matter of the model's name, of the
generated text, of the texts of single tokens, and of what a tool call was parsed to.
-/

namespace Mlxforge

open Utf8 (Valid)
open Json Utf8Text

/-- The texts of a token and of its reported alternatives are UTF-8. -/
def Reportable (tok : Tokenizer) (lp : TokenLogprob Rat) : Prop :=
  Valid (tok.tokenText lp.id) ∧ ∀ alt ∈ lp.top, Valid (tok.tokenText alt.1)

namespace Json

@[simp] theorem clean_str (s : Bytes) : (Json.str s).clean = true ↔ Valid s := Utf8.check_iff s

theorem clean_arr (items : List Json) : (Json.arr items).clean = true ↔ ∀ j ∈ items, j.clean = true := by
  rw [clean, cleanItems_eq, List.all_eq_true]

@[simp] theorem clean_arr_map {α : Type} (f : α → Json) (items : List α) :
    (Json.arr (items.map f)).clean = true ↔ ∀ x ∈ items, (f x).clean = true := by
  simp [clean_arr]

@[simp] theorem clean_arr_singleton (j : Json) : (Json.arr [j]).clean = true ↔ j.clean = true := by
  simp [clean_arr]

@[simp] theorem clean_object_nil : (object []).clean = true := rfl

@[simp] theorem clean_object_cons (key : String) (v : Json) (rest : List (String × Json)) :
    (object ((key, v) :: rest)).clean = true ↔
      Utf8.check (Bytes.ofAscii key) = true ∧ v.clean = true ∧ (object rest).clean = true := by
  simp only [object, List.map_cons, clean, cleanFields, Bool.and_eq_true, and_assoc]

@[simp] theorem clean_int (i : Int) : (Json.int i).clean = true := rfl

@[simp] theorem clean_float (x : Rat) : (Json.float x).clean = true := rfl

@[simp] theorem clean_null : Json.null.clean = true := rfl

end Json

theorem bytesJson_clean (text : Bytes) : (bytesJson text).clean = true := by
  simp [bytesJson]

theorem logprobEntry_clean (tok : Tokenizer) (id : Int) (logprob : Rat) :
    (logprobEntry tok id logprob).clean = true ↔ Valid (tok.tokenText id) := by
  simp (disch := decide) [logprobEntry, logprobFields, bytesJson_clean, tok.decode_singleton, check_ofAscii]

theorem tokenEntry_clean (tok : Tokenizer) (lp : TokenLogprob Rat) : (tokenEntry tok lp).clean = true ↔ Reportable tok lp := by
  simp (disch := decide) [tokenEntry, logprobFields, bytesJson_clean, tok.decode_singleton, logprobEntry_clean, Reportable,
    check_ofAscii]

theorem makeLogprobsContent_clean (tok : Tokenizer) (lps : List (TokenLogprob Rat)) :
    (makeLogprobsContent tok lps).clean = true ↔ ∀ lp ∈ lps, Reportable tok lp := by
  simp [makeLogprobsContent, tokenEntry_clean]

theorem makeUsage_clean (p c : Int) : (makeUsage p c).clean = true := by
  simp (disch := decide) [makeUsage, check_ofAscii]

/-! ### Tool calls -/

def ToolCall.Clean (call : ToolCall) : Prop := Valid call.name ∧ Valid call.arguments

theorem toolCallJson_clean (i : Nat) (call : ToolCall) : (toolCallJson i call).clean = true ↔ call.Clean := by
  have id : Valid (Bytes.ofAscii ("call_" ++ i.repr)) := valid_tagged "call_" i (by decide)
  simp (disch := decide) [toolCallJson, Json.text, id, check_ofAscii, valid_ofAscii, ToolCall.Clean]

theorem makeToolCalls_clean (calls : List ToolCall) : (makeToolCalls calls).clean = true ↔ ∀ call ∈ calls, call.Clean := by
  rw [makeToolCalls, clean_arr]
  constructor
  · intro h call hc
    obtain ⟨i, bound, rfl⟩ := List.mem_iff_getElem.mp hc
    refine (toolCallJson_clean i _).mp (h _ (List.mem_iff_getElem.mpr ⟨i, by simpa using bound, ?_⟩))
    simp
  · intro h j hj
    obtain ⟨i, bound, rfl⟩ := List.mem_mapIdx.mp hj
    exact (toolCallJson_clean i _).mpr (h _ (List.getElem_mem bound))

theorem lookup_clean {fields : List (Bytes × Json)} {key : Bytes} {v : Json} (clean : cleanFields fields = true)
    (h : fields.lookup key = some v) : v.clean = true := by
  induction fields with
  | nil => cases h
  | cons field rest ih =>
    obtain ⟨k, j⟩ := field
    simp only [cleanFields, Bool.and_eq_true] at clean
    rw [List.lookup_cons] at h
    split at h
    · cases h
      exact clean.1.2
    · exact ih clean.2 h

theorem find?_clean {o v : Json} {key : String} (clean : o.clean = true) (h : o.find? key = some v) : v.clean = true := by
  unfold find? at h
  split at h
  · exact lookup_clean (by simpa only [Json.clean] using clean) h
  · cases h

section
variable {js : JsonLib} (lawful : js.Lawful)

include lawful

theorem dump_valid {j : Json} {t : Bytes} (clean : j.clean = true) (h : js.dump j = .ok t) : Valid t := by
  obtain ⟨t', ok, valid⟩ := (dump_spec lawful.num j).1 clean
  cases ok.symm.trans h
  exact valid

theorem callArguments_valid {o : Json} {args : Bytes} (clean : o.clean = true) (h : callArguments js o = .ok args) :
    Valid args := by
  have empty : Valid (Bytes.ofAscii "\x7b\x7d") := by decide
  unfold callArguments at h
  split at h
  · cases h
    exact empty
  next v found =>
    split at h
    · cases h
      exact empty
    · refine dump_valid lawful ?_ h
      rcases Option.or_eq_some_iff.mp found with found | ⟨-, found⟩
      · exact find?_clean clean found
      · exact find?_clean clean found

theorem objectToCall_clean {o : Json} {call : ToolCall} (clean : o.clean = true) (h : objectToCall js o = .ok (some call)) :
    call.Clean := by
  unfold objectToCall at h
  split at h
  · cases h
  split at h
  next name found =>
    obtain ⟨args, ok, same⟩ := bind_ok h
    cases pure_ok same
    exact ⟨(clean_str name).mp (find?_clean clean found), callArguments_valid lawful clean ok⟩
  · cases h

end

/-- Where a call comes from. -/
def ToolCall.ParsedBy (js : JsonLib) (call : ToolCall) : Prop :=
  ∃ s o, js.parse s = .ok o ∧ objectToCall js o = .ok (some call)

theorem callsInParts_parsed {js : JsonLib} {parts : List Bytes} {calls : List ToolCall}
    (h : callsInParts js parts = .ok calls) : ∀ call ∈ calls, call.ParsedBy js := by
  induction parts generalizing calls with
  | nil =>
    cases h
    nofun
  | cons part parts ih =>
    unfold callsInParts at h
    split at h
    next o parsed =>
      obtain ⟨found, ok, h⟩ := bind_ok h
      obtain ⟨more, okMore, same⟩ := bind_ok h
      cases pure_ok same
      intro call hc
      rcases List.mem_append.mp hc with hc | hc
      · exact ⟨_, o, parsed, by rw [ok, Option.mem_toList.mp hc]⟩
      · exact ih okMore call hc
    · exact ih h
    · cases h

theorem parseToolCalls_parsed {js : JsonLib} {text : Bytes} {calls : List ToolCall}
    (h : parseToolCalls js text = .ok calls) : ∀ call ∈ calls, call.ParsedBy js := by
  unfold parseToolCalls at h
  dsimp only at h
  split at h
  · cases h
    nofun
  split at h
  next o parsed =>
    obtain ⟨found, ok, same⟩ := bind_ok h
    cases pure_ok same
    intro call hc
    exact ⟨_, o, parsed, by rw [ok, Option.mem_toList.mp hc]⟩
  · exact callsInParts_parsed h
  · cases h

/-- The calls read from the model's output are UTF-8, whatever the output is. -/
theorem ToolCall.ParsedBy.clean {js : JsonLib} (lawful : js.Lawful) {call : ToolCall} (h : call.ParsedBy js) :
    call.Clean := by
  obtain ⟨s, o, parsed, found⟩ := h
  exact objectToCall_clean lawful (lawful.clean parsed) found

/-- The arguments of a call can be parsed again. -/
theorem ToolCall.ParsedBy.arguments {js : JsonLib} (lawful : js.Lawful) {call : ToolCall} (h : call.ParsedBy js) :
    ∃ input, js.parse call.arguments = .ok input ∧ input.clean = true := by
  obtain ⟨s, o, parsed, found⟩ := h
  have again : ∃ input, js.parse call.arguments = .ok input := by
    unfold objectToCall at found
    split at found
    · cases found
    split at found
    next name named =>
      obtain ⟨args, ok, same⟩ := bind_ok found
      cases pure_ok same
      dsimp only
      unfold callArguments at ok
      split at ok
      · cases ok
        exact ⟨_, lawful.empty⟩
      next v chosen =>
        split at ok
        · cases ok
          exact ⟨_, lawful.empty⟩
        · refine ⟨v, ?_⟩
          unfold find? at chosen
          cases o with
          | obj fields =>
            rcases Option.or_eq_some_iff.mp chosen with chosen | ⟨-, chosen⟩
            · exact lawful.reparse parsed chosen ok
            · exact lawful.reparse parsed chosen ok
          | _ => cases chosen
    · cases found
  obtain ⟨input, ok⟩ := again
  exact ⟨input, ok, lawful.clean ok⟩

/-! ### Responses and streams -/

theorem makeChatChunk_clean {id model : Bytes} {created : Int} {delta finish lp : Json} (idValid : Valid id) :
    (makeChatChunk id created model delta finish lp).clean = true ↔
      Valid model ∧ delta.clean = true ∧ finish.clean = true ∧ lp.clean = true := by
  have absent : (Json.object (if lp.isNull then [] else [("logprobs", Json.object [("content", lp)])])).clean = true ↔
      lp.clean = true := by
    cases lp <;> simp (disch := decide) [isNull, check_ofAscii]
  have choice : (Json.object ([("index", .int 0), ("delta", delta), ("finish_reason", finish)] ++
      if lp.isNull then [] else [("logprobs", .object [("content", lp)])])).clean = true ↔
      delta.clean = true ∧ finish.clean = true ∧ lp.clean = true := by
    simp (disch := decide) [absent, check_ofAscii]
  simp (disch := decide) only [makeChatChunk, clean_object_cons, clean_arr_singleton, choice, Json.text, clean_str,
    clean_int, clean_object_nil, check_ofAscii, valid_ofAscii, idValid]
  simp

theorem dump_ok_iff {js : JsonLib} (lawful : js.Lawful) (j : Json) : (∃ t, js.dump j = .ok t) ↔ j.clean = true := by
  obtain ⟨good, bad⟩ := dump_spec lawful.num j
  cases clean : j.clean with
  | true =>
    obtain ⟨t, ok, -⟩ := good clean
    exact iff_of_true ⟨t, ok⟩ rfl
  | false =>
    refine iff_of_false ?_ Bool.false_ne_true
    rintro ⟨t, ok⟩
    cases ok.symm.trans (bad clean)

/-- A stream goes out whole exactly if every frame can be serialized. -/
theorem Server.sendFrames_whole {sv : Server} (lawful : sv.js.Lawful) {frames : List Json} {thrown : Option Exn} :
    (sv.sendFrames thrown frames).2 = none ↔ thrown = none ∧ ∀ frame ∈ frames, frame.clean = true := by
  induction frames with
  | nil => simp [sendFrames]
  | cons frame frames ih =>
    have serialized := dump_ok_iff lawful frame
    unfold sendFrames
    cases h : sv.js.dump frame with
    | ok t =>
      have clean := serialized.mp ⟨t, h⟩
      simp [ih, clean]
    | error e =>
      have dirty : ¬frame.clean = true := fun clean => by
        obtain ⟨t, ok⟩ := serialized.mpr clean
        cases h.symm.trans ok
      simp [dirty]

theorem Server.sendFrames_frames {sv : Server} {frames : List Json} {thrown : Option Exn}
    (whole : (sv.sendFrames thrown frames).2 = none) : (sv.sendFrames thrown frames).1 = frames := by
  induction frames with
  | nil => rfl
  | cons frame frames ih =>
    unfold sendFrames at whole ⊢
    split at whole
    · rw [ih whole]
    · cases whole

theorem Server.sendFrames_all {sv : Server} (lawful : sv.js.Lawful) {frames : List Json} :
    (∃ sent, sv.sendFrames none frames = (sent, none)) ↔ ∀ frame ∈ frames, frame.clean = true := by
  have whole : (sv.sendFrames none frames).2 = none ↔ none = none ∧ ∀ frame ∈ frames, frame.clean = true :=
    Server.sendFrames_whole lawful
  constructor
  · rintro ⟨sent, out⟩
    exact (whole.mp (congrArg Prod.snd out)).2
  · intro clean
    exact ⟨_, Prod.ext rfl (whole.mpr ⟨rfl, clean⟩)⟩

end Mlxforge
