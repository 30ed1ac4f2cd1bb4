import Mlxforge.Json.Dump
import Mlxforge.Json.DumpText
import Mlxforge.Json.QuoteScan
import Mlxforge.Server.OpenAi

/-!
Tool calls written as the template replays them, and read again: a list of calls comes back whole exactly if it is one
call, or no name and no argument holds the byte that parts the calls.
-/

namespace Mlxforge

open Ascii Json

/-! ### The replayed text -/

/-- `at`. -/
def Json.atKey (key : String) (j : Json) : Except Exn Json :=
  if j.isObject then
    match j.find? key with
    | some v => .ok v
    | none => .error .outOfRange
  else .error .type

section
variable (js : JsonLib)

/-- The arguments come as a JSON text; an object is taken too. -/
def replayArguments (raw : Json) : Except Exn Json :=
  match raw with
  | .str s =>
    match js.parse s with
    | .ok args => .ok args
    | .error .parse => .ok (.obj [])
    | .error e => .error e
  | .obj fields => .ok (.obj fields)
  | _ => .ok (.obj [])

/-- The first call as the one JSON object that the model emitted. -/
def renderAssistantToolCall (toolCalls : Json) : Except Exn Bytes :=
  match toolCalls with
  | .arr (first :: _) => do
    let fn ← first.atKey "function"
    let args ← replayArguments js (← fn.atKey "arguments")
    let name ← (← fn.atKey "name").getString
    return .ofAscii "\x7b\"name\": " ++ (← js.dump (.str name)) ++
      (.ofAscii ", \"parameters\": " ++ (← js.dump args) ++ .ofAscii "\x7d")
  | _ => .error (.runtime "'tool_calls' must be a non-empty array")

end

/-- A tool call: a name, and a JSON object as the arguments. -/
structure JsonCall (float : Bytes → Option Rat) where
  name : Bytes
  arguments : List (Bytes × Json)
  stored : Json.Stored float (.obj arguments)

/-- A client hands the call back as the server gave it out. -/
def JsonCall.replay {float : Bytes → Option Rat} (js : JsonLib) (call : JsonCall float) : Except Exn Bytes := do
  let arguments ← js.dump (.obj call.arguments)
  renderAssistantToolCall js (makeToolCalls [{ name := call.name, arguments }])

/-- Texts in a row, with semicolons and blanks between them. -/
inductive Joined : List Bytes → Bytes → Prop where
  | one (t : Bytes) : Joined [t] t
  | more {t w w' s : Bytes} {ts : List Bytes} (hw : Json.Blank w) (hw' : Json.Blank w') (h : Joined ts s) :
      Joined (t :: ts) (t ++ (w ++ semicolon :: (w' ++ s)))

/-- The list with blanks around it, and with or without the tag. -/
def Replayed (ts : List Bytes) (s : Bytes) : Prop :=
  ∃ w w' w'' list, Json.Blank w ∧ Json.Blank w' ∧ Json.Blank w'' ∧ Joined ts list ∧
    (s = w ++ (list ++ w'') ∨ s = w ++ (pyTag ++ (w' ++ (list ++ w''))))

/-! ### The library -/

/-- What the code relies on: the parser takes the JSON texts with their values, takes nothing else (a zero byte would end
the input), and refuses an object with more behind it as a parse error; numbers are written in ASCII, and read back. -/
structure JsonLib.Standard (js : JsonLib) (float : Bytes → Option Rat) : Prop where
  accepts : ∀ {s v}, Document float s v → js.parse s = .ok v
  sound : ∀ {s v}, 0 ∉ s → js.parse s = .ok v → Document float s v
  trailing : ∀ {t w r fields b}, Reads float t (.value (.obj fields)) → Json.Blank w → isWs b = false → b ≠ 0 →
    js.parse (t ++ (w ++ b :: r)) = .error .parse
  ascii : ∀ x, Utf8.Valid (js.num x)
  writes : WritesFloat js.num float

/-- The calls are the same: one name, and arguments equal as JSON. -/
def Returns {float : Bytes → Option Rat} (js : JsonLib) (call : JsonCall float) (out : ToolCall) : Prop :=
  out.name = call.name ∧ js.parse out.arguments = .ok (.obj call.arguments)

/-! ### Where a byte stands in a value -/

namespace Json

mutual

/-- A string or a key in it holds the byte. -/
def holds (b : UInt8) : Json → Bool
  | .str s => s.contains b
  | .arr items => itemsHold b items
  | .obj fields => fieldsHold b fields
  | _ => false

def itemsHold (b : UInt8) : List Json → Bool
  | [] => false
  | j :: rest => holds b j || itemsHold b rest

def fieldsHold (b : UInt8) : List (Bytes × Json) → Bool
  | [] => false
  | (key, j) :: rest => key.contains b || holds b j || fieldsHold b rest

end

end Json

def JsonCall.holds {float : Bytes → Option Rat} (b : UInt8) (call : JsonCall float) : Bool :=
  call.name.contains b || fieldsHold b call.arguments

namespace Json

theorem mem_escape {b : UInt8} : semicolon ∈ escape b ↔ b = semicolon := by
  have all : ∀ n < 256, semicolon ∈ escape (UInt8.ofNat n) ↔ UInt8.ofNat n = semicolon := by decide +kernel
  have at_ := all b.toNat b.toNat_lt
  rwa [UInt8.ofNat_toNat] at at_

theorem mem_dumpString {s t : Bytes} (h : dumpString s = .ok t) : semicolon ∈ t ↔ s.contains semicolon = true := by
  unfold dumpString at h
  split at h
  · cases h
    have quoted : semicolon ≠ 0x22 := by decide
    simp [List.mem_flatMap, mem_escape, quoted]
  · cases h

/-- Between the items stands another byte. -/
theorem mem_list {b : UInt8} (other : b ≠ 0x2C) (texts : List Bytes) :
    (∃ t ∈ texts.intersperse [0x2C], b ∈ t) ↔ ∃ t ∈ texts, b ∈ t := by
  induction texts with
  | nil => rfl
  | cons t texts ih =>
    cases texts with
    | nil => rfl
    | cons t' texts =>
      rw [List.intersperse_cons_cons, List.exists_mem_cons_iff, List.exists_mem_cons_iff, ih, List.exists_mem_cons_iff]
      simp [other]

theorem not_mem_number {t : Bytes} (h : t ∈ JsonText.number) : semicolon ∉ t := by
  intro listed
  exact absurd (numberBytes ((isNumber_iff t).mpr h) semicolon listed) (by decide)

section
variable {num : Rat → Bytes} {float : Bytes → Option Rat}

mutual

theorem mem_dump (writes : WritesFloat num float) {j : Json} {t : Bytes} (stored : Json.Stored float j)
    (h : dump num j = .ok t) : semicolon ∈ t ↔ holds semicolon j = true := by
  cases j with
  | null =>
    cases h
    exact iff_of_false (by decide) (by simp [holds])
  | bool b =>
    cases h
    exact iff_of_false (by cases b <;> decide) (by simp [holds])
  | int i =>
    cases h
    exact iff_of_false (not_mem_number ((isNumber_iff _).mp (intText i).1)) (by simp [holds])
  | float x =>
    cases h
    cases stored with
    | float read => exact iff_of_false (not_mem_number (writes x _ read).1) (by simp [holds])
  | str s => exact mem_dumpString h
  | arr items =>
    obtain ⟨texts, ok, same⟩ := bind_ok h
    cases pure_ok same
    cases stored with
    | arr each =>
      have inside := (mem_list (by decide) texts).trans (mem_dumpItems writes each ok)
      have outside : semicolon ≠ 0x5B ∧ semicolon ≠ 0x5D := by decide
      simp [outside, inside, holds]
  | obj fields =>
    obtain ⟨texts, ok, same⟩ := bind_ok h
    cases pure_ok same
    cases stored with
    | obj keys each =>
      have inside := (mem_list (by decide) texts).trans (mem_dumpFields writes each ok)
      have outside : semicolon ≠ 0x7B ∧ semicolon ≠ 0x7D := by decide
      simp [outside, inside, holds]

theorem mem_dumpItems (writes : WritesFloat num float) {items : List Json} {texts : List Bytes}
    (stored : ∀ v ∈ items, Json.Stored float v) (h : dumpItems num items = .ok texts) :
    (∃ t ∈ texts, semicolon ∈ t) ↔ itemsHold semicolon items = true := by
  cases items with
  | nil =>
    cases h
    simp [itemsHold]
  | cons v vs =>
    rw [List.forall_mem_cons] at stored
    obtain ⟨text, ok, h⟩ := bind_ok h
    obtain ⟨rest, oks, same⟩ := bind_ok h
    cases pure_ok same
    rw [List.exists_mem_cons_iff, mem_dump writes stored.1 ok, mem_dumpItems writes stored.2 oks, itemsHold, Bool.or_eq_true]

theorem mem_dumpFields (writes : WritesFloat num float) {fields : List (Bytes × Json)} {texts : List Bytes}
    (stored : ∀ f ∈ fields, Json.Stored float f.2) (h : dumpFields num fields = .ok texts) :
    (∃ t ∈ texts, semicolon ∈ t) ↔ fieldsHold semicolon fields = true := by
  cases fields with
  | nil =>
    cases h
    simp [fieldsHold]
  | cons f fs =>
    obtain ⟨key, v⟩ := f
    rw [List.forall_mem_cons] at stored
    obtain ⟨keyText, okKey, h⟩ := bind_ok h
    obtain ⟨text, ok, h⟩ := bind_ok h
    obtain ⟨rest, oks, same⟩ := bind_ok h
    cases pure_ok same
    have colon : semicolon ≠ 0x3A := by decide
    rw [List.exists_mem_cons_iff, List.mem_append, List.mem_cons, mem_dumpString okKey, mem_dump writes stored.1 ok,
      mem_dumpFields writes stored.2 oks, fieldsHold, Bool.or_eq_true, Bool.or_eq_true]
    simp only [colon, false_or]

end

end

end Json

/-! ### Texts of the library -/

variable {float : Bytes → Option Rat} {js : JsonLib}

namespace JsonLib.Standard

variable (std : js.Standard float)

include std

theorem dump_valid {j : Json} {t : Bytes} (h : js.dump j = .ok t) : Utf8.Valid t := by
  obtain ⟨good, bad⟩ := dump_spec std.ascii j
  cases clean : j.clean with
  | false => cases (bad clean).symm.trans h
  | true =>
    obtain ⟨t', ok, valid⟩ := good clean
    cases ok.symm.trans h
    exact valid

theorem parse_reads {t : Bytes} {v : Json} (valid : Utf8.Valid t) (reads : Reads float t (.value v)) :
    js.parse t = .ok v :=
  std.accepts ⟨(Utf8.check_iff t).mpr valid, [], [], t, [], .inl rfl, nofun, reads, nofun, by simp⟩

/-- What is written is read back. -/
theorem parse_dump {j : Json} {t : Bytes} (stored : Json.Stored float j) (h : js.dump j = .ok t) : js.parse t = .ok j :=
  std.parse_reads (std.dump_valid h) (reads_dump std.writes stored h)

end JsonLib.Standard

/-! ### One call -/

/-- The text of a call, from the texts of its name and its arguments. -/
def callObject (name args : Bytes) : Bytes :=
  .ofAscii "\x7b\"name\": " ++ name ++ (.ofAscii ", \"parameters\": " ++ args ++ .ofAscii "\x7d")

theorem atKey_object {fields : List (String × Json)} {key : String} {v : Json} (h : (object fields).find? key = some v) :
    (object fields).atKey key = .ok v := by
  unfold atKey
  rw [h]
  rfl

/-- The call that the server gave out is replayed with its own name and arguments. -/
theorem replay_eq (std : js.Standard float) (call : JsonCall float) :
    call.replay js = do
      let args ← js.dump (.obj call.arguments)
      let name ← js.dump (.str call.name)
      return callObject name args := by
  unfold JsonCall.replay
  cases written : js.dump (.obj call.arguments) with
  | error e => rfl
  | ok args =>
    have function : (toolCallJson 0 { name := call.name, arguments := args }).atKey "function" =
        .ok (.object [("name", .str call.name), ("arguments", .str args)]) :=
      atKey_object (by simp +decide)
    have raw : (object [("name", .str call.name), ("arguments", .str args)]).atKey "arguments" = .ok (.str args) :=
      atKey_object (by simp +decide)
    have name : (object [("name", .str call.name), ("arguments", .str args)]).atKey "name" = .ok (.str call.name) :=
      atKey_object (by simp)
    have again : replayArguments js (.str args) = .ok (.obj call.arguments) := by
      unfold replayArguments
      dsimp only
      rw [std.parse_dump call.stored written]
    simp only [makeToolCalls, List.mapIdx_cons, List.mapIdx_nil, renderAssistantToolCall, ok_bind, function, raw, name, again,
      Json.getString, written, callObject]

/-- The object that a call's text stands for. -/
def callJson (name : Bytes) (args : Json) : Json := object [("name", .str name), ("parameters", args)]

theorem reads_callObject {name n a : Bytes} {v : Json} (hn : Chars n name) (ha : Reads float a (.value v)) :
    Reads float (callObject (quote :: (n ++ [quote])) a) (.value (callJson name v)) := by
  have plain (key : String) (same : (Bytes.ofAscii key).flatMap escape = Bytes.ofAscii key) :
      Chars (Bytes.ofAscii key) (Bytes.ofAscii key) := by
    have chars := chars_escape (Bytes.ofAscii key)
    rwa [same] at chars
  have blank : Json.Blank [0x20] := by simp [Json.Blank, isWs]
  have last := Reads.member blank (plain "parameters" (by decide)) blank_nil blank ha blank_nil
  have all := Reads.object (Reads.members blank_nil (plain "name" (by decide)) blank_nil blank (.str hn) blank_nil last)
  have ordered : [(Bytes.ofAscii "name", Json.str name), (Bytes.ofAscii "parameters", v)].Pairwise (·.1 < ·.1) := by
    simp +decide
  rw [storeFields_ordered ordered] at all
  have text : callObject (quote :: (n ++ [quote])) a = openBrace :: ([] ++ quote :: (Bytes.ofAscii "name" ++ quote :: ([] ++
      colon :: ([0x20] ++ (quote :: (n ++ [quote]) ++ ([] ++ comma :: ([0x20] ++ quote :: (Bytes.ofAscii "parameters" ++
        quote :: ([] ++ colon :: ([0x20] ++ (a ++ [])))))))))) ++ [closeBrace]) := by
    have front : Bytes.ofAscii "\x7b\"name\": " = openBrace :: quote :: (Bytes.ofAscii "name" ++ [quote, colon, 0x20]) := by decide
    have middle : Bytes.ofAscii ", \"parameters\": " =
        comma :: 0x20 :: quote :: (Bytes.ofAscii "parameters" ++ [quote, colon, 0x20]) := by decide
    have back : Bytes.ofAscii "\x7d" = [closeBrace] := by decide
    rw [callObject, front, middle, back]
    simp
  rw [text]
  exact all

/-- What is known of the text of a call. -/
structure CallText (js : JsonLib) (call : JsonCall float) (t : Bytes) : Prop where
  reads : Reads float t (.value (callJson call.name (.obj call.arguments)))
  parsed : ∃ o out, js.parse t = .ok o ∧ objectToCall js o = .ok (some out) ∧ Returns js call out
  braces : ∃ m, t = openBrace :: (m ++ [closeBrace])
  held : semicolon ∈ t ↔ call.holds semicolon = true

theorem objectToCall_callJson {name args : Bytes} {fields : List (Bytes × Json)} (h : js.dump (.obj fields) = .ok args) :
    objectToCall js (callJson name (.obj fields)) = .ok (some { name, arguments := args }) := by
  have found : (callJson name (.obj fields)).find? "parameters" = some (.obj fields) := by simp +decide [callJson]
  have arguments : callArguments js (callJson name (.obj fields)) = .ok args := by
    unfold callArguments
    rw [found]
    exact h
  have named : (callJson name (.obj fields)).find? "name" = some (.str name) := by simp [callJson]
  unfold objectToCall
  rw [named]
  dsimp only
  rw [arguments]
  rfl

theorem callText_of_replay (std : js.Standard float) {call : JsonCall float} {t : Bytes} (h : call.replay js = .ok t) :
    CallText js call t := by
  rw [replay_eq std] at h
  obtain ⟨args, written, h⟩ := bind_ok h
  obtain ⟨name, named, same⟩ := bind_ok h
  cases pure_ok same
  have arguments := reads_dump std.writes call.stored written
  have heldName := mem_dumpString named
  have heldArgs := mem_dump std.writes call.stored written
  have validName := std.dump_valid named
  obtain ⟨n, rfl, chars⟩ := dumpString_chars named
  have reads := reads_callObject chars arguments
  have valid : Utf8.Valid (callObject (quote :: (n ++ [quote])) args) := by
    have front := Utf8Text.valid_ofAscii (s := "\x7b\"name\": ") (by decide)
    have middle := Utf8Text.valid_ofAscii (s := ", \"parameters\": ") (by decide)
    have back := Utf8Text.valid_ofAscii (s := "\x7d") (by decide)
    exact (front.append validName).append ((middle.append (std.dump_valid written)).append back)
  constructor
  · exact reads
  · exact ⟨_, _, std.parse_reads valid reads, objectToCall_callJson written, rfl, std.parse_dump call.stored written⟩
  · exact ⟨Bytes.ofAscii "\"name\": " ++ (quote :: (n ++ [quote]) ++ (Bytes.ofAscii ", \"parameters\": " ++ args)), by
      have front : Bytes.ofAscii "\x7b\"name\": " = openBrace :: Bytes.ofAscii "\"name\": " := by decide
      have back : Bytes.ofAscii "\x7d" = [closeBrace] := by decide
      rw [callObject, front, back]
      simp⟩
  · have plain : semicolon ∉ Bytes.ofAscii "\x7b\"name\": " ∧ semicolon ∉ Bytes.ofAscii ", \"parameters\": " ∧
        semicolon ∉ Bytes.ofAscii "\x7d" := by decide
    unfold callObject
    rw [List.mem_append, List.mem_append, List.mem_append, List.mem_append, heldName, heldArgs, JsonCall.holds,
      Bool.or_eq_true, holds]
    simp only [plain, false_or, or_false]

end Mlxforge
