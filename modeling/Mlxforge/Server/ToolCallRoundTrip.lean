import Mlxforge.Json.ReaderGrammar
import Mlxforge.Server.ToolCallText

/-!
`parse_tool_calls` on replayed calls. A call that holds a semicolon is cut there, and no part of it is a call again.
-/

namespace Mlxforge

open Ascii Json

/-! ### Blanks -/

theorem isBlank_eq : isBlank = isWs := by
  funext b
  simp only [isBlank, isWs, Bool.or_assoc]
  rw [Bool.or_comm (b == 0x0D)]

theorem trim_padded {l s r : Bytes} (hl : Json.Blank l) (hr : Json.Blank r) (some : s ≠ []) (first : isWs (s.head some) = false)
    (last : isWs (s.getLast some) = false) : trim (l ++ (s ++ r)) = s := by
  have front : (l ++ (s ++ r)).dropWhile isBlank = s ++ r := by
    rw [isBlank_eq, List.dropWhile_append_of_pos hl]
    cases s with
    | nil => exact absurd rfl some
    | cons b s =>
      have solid : ¬isWs b = true := by simpa using first
      simp [solid]
  have back : (s ++ r).rdropWhile isBlank = s := by
    have reversed : ∀ b ∈ r.reverse, isWs b = true := fun b hb => hr b (List.mem_reverse.mp hb)
    rw [isBlank_eq, List.rdropWhile, List.reverse_append, List.dropWhile_append_of_pos reversed, ← List.rdropWhile,
      List.rdropWhile_eq_self_iff]
    intro _
    simpa using last
  rw [trim, front, back]

theorem rdropWhile_split (s : Bytes) : ∃ r, Json.Blank r ∧ s = s.rdropWhile isWs ++ r := by
  obtain ⟨r, hr, split⟩ := skipWs_split s.reverse
  refine ⟨r.reverse, fun b hb => hr b (List.mem_reverse.mp hb), ?_⟩
  have back := congrArg List.reverse split
  rwa [List.reverse_reverse, List.reverse_append] at back

theorem trim_split (s : Bytes) : ∃ l r, Json.Blank l ∧ Json.Blank r ∧ s = l ++ (trim s ++ r) := by
  obtain ⟨l, hl, front⟩ := skipWs_split s
  obtain ⟨r, hr, back⟩ := rdropWhile_split (skipWs s)
  refine ⟨l, r, hl, hr, ?_⟩
  have inner : trim s = (skipWs s).rdropWhile isWs := by
    rw [trim, isBlank_eq]
    rfl
  rw [inner, ← back]
  exact front

/-- The text of a call with blanks around it. -/
theorem CallText.trim {float : Bytes → Option Rat} {js : JsonLib} {call : JsonCall float} {t l r : Bytes}
    (h : CallText js call t) (hl : Json.Blank l) (hr : Json.Blank r) : trim (l ++ (t ++ r)) = t := by
  obtain ⟨m, rfl⟩ := h.braces
  exact trim_padded hl hr (by simp) rfl (by simp +decide)

/-! ### Parts of a cut text -/

section
variable {float : Bytes → Option Rat} {js : JsonLib}

open Quoting

theorem inside_trim {p : Bytes} {q : Quoting} (h : scan .inside p = some q) : ∃ q, scan .inside (trim p) = some q := by
  obtain ⟨l, r, hl, hr, eq⟩ := trim_split p
  rw [eq] at h
  obtain ⟨q₁, front, h⟩ := scan_append_some.mp h
  obtain ⟨q₂, body, -⟩ := scan_append_some.mp h
  rw [blank_of_inside hl front] at body
  exact ⟨q₂, body⟩

theorem outside_trim {p : Bytes} (h : scan .outside p = some .inside) : scan .outside (trim p) = some .inside := by
  obtain ⟨l, r, hl, hr, eq⟩ := trim_split p
  rw [eq, scan_append, scan_blank hl, Option.bind_some] at h
  obtain ⟨q, body, back⟩ := scan_append_some.mp h
  rw [body, inside_of_blank hr back]

theorem objectToCall_none {o : Json} (h : ∀ v, o.find? "name" ≠ some v) : objectToCall js o = .ok none := by
  unfold objectToCall
  split
  · rfl
  · cases found : o.find? "name" with
    | none => rfl
    | some v => exact absurd found (h v)

/-- The part is passed over, or an exception leaves `parse_tool_calls` there. -/
def NoCall (js : JsonLib) (part : Bytes) : Prop := ∀ o, js.parse (trim part) = .ok o → objectToCall js o = .ok none

theorem noCall_of_inside (std : js.Standard float) {p : Bytes} {q : Quoting} (h : scan .inside p = some q) :
    NoCall js p := by
  intro o parsed
  obtain ⟨q, scanned⟩ := inside_trim h
  have document := std.sound (scan_no_zero scanned) parsed
  refine objectToCall_none fun v found => ?_
  cases o with
  | obj fields =>
    have key : Bytes.ofAscii "name" = 0x6E :: Bytes.ofAscii "ame" := by decide
    have named : fields.lookup (.ofAscii "name") = some v := found
    rw [key] at named
    exact not_keyAt_of_inside (by decide) scanned (keyAt_document document named)
  | _ => cases found

theorem noCall_of_open (std : js.Standard float) {p : Bytes} (h : scan .outside p = some .inside) : NoCall js p := by
  intro o parsed
  have scanned := outside_trim h
  obtain ⟨q, rests, between⟩ := rests_document (std.sound (scan_no_zero scanned) parsed)
  cases scanned.symm.trans rests
  rcases between with same | same <;> cases same

/-- Behind the first semicolon every part starts inside a string. -/
theorem noCall_parts (std : js.Standard float) {s : Bytes} {q : Quoting} (h : scan .inside s = some q) :
    ∀ part ∈ s.splitOn semicolon, NoCall js part := by
  induction length : s.length using Nat.strong_induction_on generalizing s with
  | _ n ih =>
    by_cases more : semicolon ∈ s
    · obtain ⟨p, s', rfl, none⟩ := List.eq_append_cons_of_mem more
      obtain ⟨q₁, front, h⟩ := scan_append_some.mp h
      obtain ⟨q₂, cut, h⟩ := scan_cons_some.mp h
      obtain ⟨rfl, rfl⟩ := step_semicolon cut
      rw [List.splitOn_append_cons_self_of_not_mem none, List.forall_mem_cons]
      exact ⟨noCall_of_inside std front, ih s'.length (by simp at length; omega) h rfl⟩
    · rw [List.splitOn_eq_singleton more, List.forall_mem_cons]
      exact ⟨noCall_of_inside std h, nofun⟩

/-- No part of a text that is cut is a call. -/
theorem noCall_of_cut (std : js.Standard float) {s : Bytes} (rests : Rests .outside s) (cut : semicolon ∈ s) :
    ∀ part ∈ s.splitOn semicolon, NoCall js part := by
  obtain ⟨p, s', rfl, none⟩ := List.eq_append_cons_of_mem cut
  obtain ⟨q, scanned, -⟩ := rests
  obtain ⟨q₁, front, h⟩ := scan_append_some.mp scanned
  obtain ⟨q₂, cut, h⟩ := scan_cons_some.mp h
  obtain ⟨rfl, rfl⟩ := step_semicolon cut
  rw [List.splitOn_append_cons_self_of_not_mem none, List.forall_mem_cons]
  exact ⟨noCall_of_open std front, noCall_parts std h⟩

/-! ### The calls in the parts -/

theorem callsInParts_none {parts : List Bytes} {out : List ToolCall} (none : ∀ part ∈ parts, NoCall js part)
    (h : callsInParts js parts = .ok out) : out = [] := by
  induction parts generalizing out with
  | nil => exact (Except.ok.inj h).symm
  | cons part parts ih =>
    rw [List.forall_mem_cons] at none
    unfold callsInParts at h
    split at h
    next o parsed =>
      rw [none.1 o parsed, ok_bind] at h
      obtain ⟨rest, others, same⟩ := bind_ok h
      cases pure_ok same
      exact ih none.2 others
    · exact ih none.2 h
    · cases h

theorem callsInParts_append (front back : List Bytes) : callsInParts js (front ++ back) = do
    let out ← callsInParts js front
    return out ++ (← callsInParts js back) := by
  induction front with
  | nil =>
    cases h : callsInParts js back with
    | ok out => simp [callsInParts, h]
    | error e => simp [callsInParts, h]
  | cons part front ih =>
    rw [List.cons_append, callsInParts, callsInParts]
    cases js.parse (trim part) with
    | ok o =>
      dsimp only
      rw [ih]
      cases objectToCall js o with
      | error e => rfl
      | ok call =>
        cases callsInParts js front with
        | error e => rfl
        | ok out =>
          cases callsInParts js back with
          | error e => rfl
          | ok out' => simp
    | error e =>
      cases e with
      | parse => exact ih
      | _ => rfl

/-- One call of the list: alone in its part it comes back, cut it does not. -/
theorem callsInParts_call (std : js.Standard float) {call : JsonCall float} {t l r : Bytes} (text : CallText js call t)
    (hl : Json.Blank l) (hr : Json.Blank r) :
    (call.holds semicolon = false →
      ∃ out, callsInParts js ((l ++ (t ++ r)).splitOn semicolon) = .ok [out] ∧ Returns js call out) ∧
    (call.holds semicolon = true → ∀ out, callsInParts js ((l ++ (t ++ r)).splitOn semicolon) = .ok out → out = []) := by
  have blank {w : Bytes} (hw : Json.Blank w) : semicolon ∉ w := by
    intro listed
    exact absurd (hw semicolon listed) (by decide)
  have listed : semicolon ∈ l ++ (t ++ r) ↔ call.holds semicolon = true := by
    rw [List.mem_append, List.mem_append, text.held]
    simp only [blank hl, blank hr, false_or, or_false]
  constructor
  · intro plain
    have alone : semicolon ∉ l ++ (t ++ r) := by simp [listed, plain]
    obtain ⟨o, out, parsed, found, returns⟩ := text.parsed
    refine ⟨out, ?_, returns⟩
    rw [List.splitOn_eq_singleton alone, callsInParts, text.trim hl hr, parsed]
    dsimp only
    rw [found]
    rfl
  · intro cut out h
    have rests : Rests .outside (l ++ (t ++ r)) := .after (scan_blank hl) ((rests_reads text.reads).blank hr)
    exact callsInParts_none (noCall_of_cut std rests (listed.mpr cut)) h

/-! ### The whole list -/

/-- What comes back, unless an exception is thrown, are the calls without a semicolon. -/
theorem callsInParts_joined (std : js.Standard float) {ts : List Bytes} {s : Bytes} (joined : Joined ts s)
    {calls : List (JsonCall float)} (texts : List.Forall₂ (CallText js) calls ts) {w : Bytes} (hw : Json.Blank w)
    {out : List ToolCall} (h : callsInParts js ((w ++ s).splitOn semicolon) = .ok out) :
    List.Forall₂ (Returns js) (calls.filter fun call => !call.holds semicolon) out := by
  have one {call : JsonCall float} {t l r : Bytes} {out : List ToolCall} (text : CallText js call t) (hl : Json.Blank l)
      (hr : Json.Blank r) (h : callsInParts js ((l ++ (t ++ r)).splitOn semicolon) = .ok out) :
      List.Forall₂ (Returns js) ([call].filter fun call => !call.holds semicolon) out := by
    obtain ⟨plain, cut⟩ := callsInParts_call std text hl hr
    cases held : call.holds semicolon with
    | true => simp [held, cut held out h]
    | false =>
      obtain ⟨found, ok, returns⟩ := plain held
      cases ok.symm.trans h
      simp [held, returns]
  induction joined generalizing calls w out with
  | one t =>
    obtain ⟨call, none, text, nothing, rfl⟩ := List.forall₂_cons_right_iff.mp texts
    cases nothing
    exact one text hw blank_nil (by simpa using h)
  | @more t w₁ w₂ s ts hw₁ hw₂ _ ih =>
    obtain ⟨call, rest, text, others, rfl⟩ := List.forall₂_cons_right_iff.mp texts
    have split : (w ++ (t ++ (w₁ ++ semicolon :: (w₂ ++ s)))).splitOn semicolon =
        (w ++ (t ++ w₁)).splitOn semicolon ++ (w₂ ++ s).splitOn semicolon := by
      rw [← List.splitOn_append_cons_self]
      simp
    rw [split, callsInParts_append] at h
    obtain ⟨first, okFirst, h⟩ := bind_ok h
    obtain ⟨more, okMore, same⟩ := bind_ok h
    cases pure_ok same
    have head := one text hw hw₁ okFirst
    rw [← List.singleton_append, List.filter_append]
    exact List.rel_append head (ih others hw₂ okMore)

/-- Without a semicolon in any call no exception is thrown. -/
theorem callsInParts_ok (std : js.Standard float) {ts : List Bytes} {s : Bytes} (joined : Joined ts s)
    {calls : List (JsonCall float)} (texts : List.Forall₂ (CallText js) calls ts)
    (plain : ∀ call ∈ calls, call.holds semicolon = false) {w : Bytes} (hw : Json.Blank w) :
    ∃ out, callsInParts js ((w ++ s).splitOn semicolon) = .ok out := by
  induction joined generalizing calls w with
  | one t =>
    obtain ⟨call, none, text, nothing, rfl⟩ := List.forall₂_cons_right_iff.mp texts
    obtain ⟨out, ok, -⟩ := (callsInParts_call std text hw blank_nil).1 (plain call List.mem_cons_self)
    rw [List.append_nil] at ok
    exact ⟨_, ok⟩
  | @more t w₁ w₂ s ts hw₁ hw₂ _ ih =>
    obtain ⟨call, rest, text, others, rfl⟩ := List.forall₂_cons_right_iff.mp texts
    rw [List.forall_mem_cons] at plain
    have split : (w ++ (t ++ (w₁ ++ semicolon :: (w₂ ++ s)))).splitOn semicolon =
        (w ++ (t ++ w₁)).splitOn semicolon ++ (w₂ ++ s).splitOn semicolon := by
      rw [← List.splitOn_append_cons_self]
      simp
    obtain ⟨first, okFirst, -⟩ := (callsInParts_call std text hw hw₁).1 plain.1
    obtain ⟨more, okMore⟩ := ih others plain.2 hw₂
    exact ⟨[first] ++ more, by rw [split, callsInParts_append, okFirst, okMore]; rfl⟩

/-- The list starts with an object and ends with one. -/
theorem Joined.braces {ts : List Bytes} {s : Bytes} (joined : Joined ts s) {calls : List (JsonCall float)}
    (texts : List.Forall₂ (CallText js) calls ts) : ∃ m, s = openBrace :: (m ++ [closeBrace]) := by
  induction joined generalizing calls with
  | one t =>
    obtain ⟨call, -, text, -, -⟩ := List.forall₂_cons_right_iff.mp texts
    exact text.braces
  | @more t w₁ w₂ s ts _ _ _ ih =>
    obtain ⟨call, rest, text, others, rfl⟩ := List.forall₂_cons_right_iff.mp texts
    obtain ⟨m, rfl⟩ := text.braces
    obtain ⟨m', rfl⟩ := ih others
    exact ⟨m ++ [closeBrace] ++ (w₁ ++ semicolon :: (w₂ ++ openBrace :: m')), by simp⟩

theorem semicolonParts_eq {s : Bytes} (some : s ≠ []) (last : s.getLast some ≠ semicolon) :
    semicolonParts s = s.splitOn semicolon := by
  have ends {s : Bytes} (some : s ≠ []) (last : s.getLast some ≠ semicolon) :
      (s.splitOn semicolon).getLast? ≠ .some [] := by
    induction length : s.length using Nat.strong_induction_on generalizing s with
    | _ n ih =>
      by_cases more : semicolon ∈ s
      · obtain ⟨p, s', rfl, none⟩ := List.eq_append_cons_of_mem more
        have some' : s' ≠ [] := by
          rintro rfl
          simp at last
        have last' : s'.getLast some' ≠ semicolon := by
          rwa [List.getLast_append_of_ne_nil _ (by simp), List.getLast_cons some'] at last
        rw [List.splitOn_append_cons_self_of_not_mem none, List.getLast?_cons_of_ne_nil (List.splitOn_ne_nil _ _)]
        exact ih s'.length (by simp at length; omega) some' last' rfl
      · rw [List.splitOn_eq_singleton more]
        simpa using some
  unfold semicolonParts
  exact if_neg (ends some last)

theorem callText_replayed {s list m w w' w'' : Bytes} (braces : list = openBrace :: (m ++ [closeBrace])) (hw : Json.Blank w)
    (hw' : Json.Blank w') (hw'' : Json.Blank w'') (h : s = w ++ (list ++ w'') ∨ s = w ++ (pyTag ++ (w' ++ (list ++ w'')))) :
    callText s = list := by
  have last (l : Bytes) : isWs ((l ++ list).getLast (by simp [braces])) = false := by
    subst braces
    simp +decide
  have padded {l r : Bytes} (hl : Json.Blank l) (hr : Json.Blank r) : trim (l ++ (list ++ r)) = list :=
    trim_padded hl hr (by simp [braces]) (by subst braces; rfl) (last [])
  have start : pyTag = 0x3C :: pyTag.tail := by decide
  unfold callText
  dsimp only
  rcases h with rfl | rfl
  · have untagged : ¬pyTag <+: list := by
      rw [start, braces]
      intro front
      exact absurd (List.cons_prefix_cons.mp front).1 (by decide)
    rw [padded hw hw'', if_neg untagged]
  · have outer : trim (w ++ (pyTag ++ (w' ++ list) ++ w'')) = pyTag ++ (w' ++ list) := by
      refine trim_padded hw hw'' (by simp [braces]) ?_ ?_
      · rw [List.head_append_of_ne_nil (by decide)]
        decide
      · simpa only [List.append_assoc] using last (pyTag ++ w')
    have text : w ++ (pyTag ++ (w' ++ (list ++ w''))) = w ++ (pyTag ++ (w' ++ list) ++ w'') := by simp
    have inner := padded hw' blank_nil
    rw [List.append_nil] at inner
    rw [text, outer, if_pos (List.prefix_append _ _), List.drop_left, inner]

/-- One call is parsed whole. -/
theorem parseToolCalls_one {call : JsonCall float} {t s : Bytes} (text : CallText js call t) (h : callText s = t) :
    ∃ out, parseToolCalls js s = .ok [out] ∧ Returns js call out := by
  obtain ⟨m, braces⟩ := text.braces
  obtain ⟨o, out, parsed, found, returns⟩ := text.parsed
  refine ⟨out, ?_, returns⟩
  have brace : ¬(t.head? ≠ some 0x7B) := by simp [braces]
  unfold parseToolCalls
  dsimp only
  rw [h, if_neg brace, parsed]
  dsimp only
  rw [found]
  rfl

/-- Several calls are parsed part by part. -/
theorem parseToolCalls_more (std : js.Standard float) {call : JsonCall float} {calls : List (JsonCall float)}
    {t s list : Bytes} {ts : List Bytes} (joined : Joined (t :: ts) list) (some : ts ≠ [])
    (texts : List.Forall₂ (CallText js) (call :: calls) (t :: ts)) (h : callText s = list) :
    parseToolCalls js s = callsInParts js (list.splitOn semicolon) := by
  obtain ⟨m, braces⟩ := joined.braces texts
  have whole : js.parse list = .error .parse := by
    cases joined with
    | one => exact absurd rfl some
    | more hw => exact std.trailing (List.forall₂_cons.mp texts).1.reads hw (by decide) (by decide)
  have brace : ¬(list.head? ≠ Option.some 0x7B) := by simp [braces]
  have parts : semicolonParts list = list.splitOn semicolon :=
    semicolonParts_eq (by simp [braces]) (by subst braces; simp +decide)
  unfold parseToolCalls
  dsimp only
  rw [h, if_neg brace, whole]
  exact congrArg _ parts

theorem texts_of_replays (std : js.Standard float) {calls : List (JsonCall float)} {ts : List Bytes}
    (h : calls.mapM (·.replay js) = .ok ts) : List.Forall₂ (CallText js) calls ts := by
  induction calls generalizing ts with
  | nil =>
    cases h
    exact .nil
  | cons call calls ih =>
    rw [List.mapM_cons] at h
    obtain ⟨t, first, h⟩ := bind_ok h
    obtain ⟨rest, others, same⟩ := bind_ok h
    cases pure_ok same
    exact .cons (callText_of_replay std first) (ih others)

/-- Replayed calls come back as they were exactly if there is one, or none of them holds a semicolon. -/
theorem parseToolCalls_inverts_iff (std : js.Standard float) {calls : List (JsonCall float)} (some : calls ≠ [])
    {ts : List Bytes} (rendered : calls.mapM (·.replay js) = .ok ts) {s : Bytes} (replayed : Replayed ts s) :
    (∃ out, parseToolCalls js s = .ok out ∧ List.Forall₂ (Returns js) calls out) ↔
      calls.length = 1 ∨ ∀ call ∈ calls, call.holds semicolon = false := by
  obtain ⟨w, w', w'', list, hw, hw', hw'', joined, eq⟩ := replayed
  have texts := texts_of_replays std rendered
  obtain ⟨m, braces⟩ := joined.braces texts
  have inner := callText_replayed braces hw hw' hw'' eq
  cases texts with
  | nil => exact absurd rfl some
  | @cons call t rest ts text others =>
    cases others with
    | nil =>
      have alone : list = t := by
        cases joined with
        | one => rfl
        | more _ _ h => cases h
      obtain ⟨out, ok, returns⟩ := parseToolCalls_one text (inner.trans alone)
      exact iff_of_true ⟨[out], ok, .cons returns .nil⟩ (.inl rfl)
    | @cons call' t' rest ts text' others =>
      have texts : List.Forall₂ (CallText js) (call :: call' :: rest) (t :: t' :: ts) := .cons text (.cons text' others)
      rw [parseToolCalls_more std joined (by simp) texts inner]
      constructor
      · rintro ⟨out, ok, returns⟩
        have kept := callsInParts_joined std joined texts blank_nil ok
        have same := returns.length_eq.trans kept.length_eq.symm
        have plain := List.length_filter_eq_length_iff.mp same.symm
        exact .inr fun call listed => by simpa using plain call listed
      · intro meets
        have plain := meets.resolve_left (by simp)
        obtain ⟨out, ok⟩ := callsInParts_ok std joined texts plain blank_nil
        have kept := callsInParts_joined std joined texts blank_nil ok
        rw [List.filter_eq_self.mpr fun call listed => by simp [plain call listed]] at kept
        exact ⟨out, ok, kept⟩

end

namespace ToolCallRoundTrip

/-- The reader as a library, with no numbers but integers. -/
def readerJson : JsonLib :=
  { parse := fun s =>
      match Json.read (fun _ => none) s with
      | some v => .ok v
      | none => .error .parse
    num := fun _ => .ofAscii "0.0" }

theorem readerJson_parse {s : Bytes} {v : Json} : readerJson.parse s = .ok v ↔ Document (fun _ => none) s v := by
  rw [← read_iff]
  unfold readerJson
  dsimp only
  split
  next found => simp [found]
  next none => simp [none]

theorem readerJson_standard : readerJson.Standard fun _ => none where
  accepts := readerJson_parse.mpr
  sound _ := readerJson_parse.mp
  trailing reads hw solid _ := by
    unfold readerJson
    dsimp only
    rw [read_trailing reads hw solid]
  ascii _ := Utf8Text.valid_ofAscii (by decide)
  writes _ _ read := nomatch read

/-- A call with one string as its argument, and its text. -/
def query (name text : String) : JsonCall fun _ => none :=
  { name := .ofAscii name, arguments := [(.ofAscii "q", .text text)],
    stored := .obj (List.pairwise_singleton _ _) (List.forall_mem_singleton.mpr (.str (.ofAscii text))) }

def queryText (name text : String) : Bytes :=
  callObject (.ofAscii ("\"" ++ name ++ "\"")) (.ofAscii ("\x7b\"q\":\"" ++ text ++ "\"\x7d"))

/-- Two calls, the first one with `text` as its argument. -/
def listText (text : String) : Bytes := queryText "f" text ++ ([] ++ semicolon :: ([0x20] ++ queryText "g" "\x7bc\x7d"))

theorem listText_joined (text : String) : Joined [queryText "f" text, queryText "g" "\x7bc\x7d"] (listText text) :=
  .more blank_nil (by simp [Json.Blank, isWs]) (.one _)

end ToolCallRoundTrip

open ToolCallRoundTrip

theorem parseToolCalls_inverts_tagged : ∃ out, parseToolCalls readerJson ([0x0A] ++ (pyTag ++ ([] ++ (listText "a" ++ [])))) =
    .ok out ∧ List.Forall₂ (Returns readerJson) [query "f" "a", query "g" "\x7bc\x7d"] out := by
  have rendered : [query "f" "a", query "g" "\x7bc\x7d"].mapM (·.replay readerJson) =
      .ok [queryText "f" "a", queryText "g" "\x7bc\x7d"] := rfl
  have newline : Json.Blank [0x0A] := by simp [Json.Blank, isWs]
  exact (parseToolCalls_inverts_iff readerJson_standard (by simp) rendered
    ⟨[0x0A], [], [], _, newline, blank_nil, blank_nil, listText_joined "a", .inr rfl⟩).mpr (.inr (by decide))

/-- A semicolon in an argument loses the call. -/
theorem cut_call_lost : ∃ ts, [query "f" "a;b", query "g" "\x7bc\x7d"].mapM (·.replay readerJson) = .ok ts ∧
    Replayed ts (listText "a;b") ∧ ¬∃ out, parseToolCalls readerJson (listText "a;b") = .ok out ∧
      List.Forall₂ (Returns readerJson) [query "f" "a;b", query "g" "\x7bc\x7d"] out := by
  refine ⟨[queryText "f" "a;b", queryText "g" "\x7bc\x7d"], rfl, ?_, ?_⟩
  · exact ⟨[], [], [], _, blank_nil, blank_nil, blank_nil, listText_joined "a;b", .inl (by simp)⟩
  · rintro ⟨out, ok, returns⟩
    have found : parseToolCalls readerJson (listText "a;b") =
        .ok [{ name := .ofAscii "g", arguments := .ofAscii "\x7b\"q\":\"\x7bc\x7d\"\x7d" }] := by decide +kernel
    cases ok.symm.trans found
    exact absurd returns.length_eq (by decide)

end Mlxforge
