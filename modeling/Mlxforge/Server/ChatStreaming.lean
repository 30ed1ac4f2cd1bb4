import Mlxforge.Server.Serializable

/-!
What `stream_chat` has sent after any number of tokens: content chunks whose texts are what the detokenizer returned,
or nothing while the text can still turn out to be a tool call.
-/

namespace Mlxforge

open Utf8 (Valid)

theorem trim_head? (s : Bytes) : (trim s).head? = s.find? fun b => !isBlank b := by
  have front : (s.dropWhile isBlank).head? = s.find? fun b => !isBlank b := by
    induction s with
    | nil => rfl
    | cons b s ih =>
      rw [List.dropWhile_cons, List.find?_cons]
      cases h : isBlank b with
      | true => simpa using ih
      | false => rfl
  unfold trim
  rw [← front]
  cases h : s.dropWhile isBlank with
  | nil => rfl
  | cons lead rest =>
    have solid : isBlank lead = false := by
      have := List.head?_dropWhile_not isBlank s
      simpa [h] using this
    obtain ⟨back, eq⟩ := List.rdropWhile_prefix isBlank (lead :: rest)
    cases kept : (lead :: rest).rdropWhile isBlank with
    | nil =>
      have := List.rdropWhile_eq_nil_iff.mp kept lead List.mem_cons_self
      rw [solid] at this
      cases this
    | cons b front =>
      rw [kept, List.cons_append] at eq
      rw [(List.cons.inj eq).1]
      rfl

theorem brace_of_calls {js : JsonLib} {text : Bytes} (h : parseToolCalls js text ≠ .ok []) :
    (callText text).head? = some 0x7B := by
  by_contra other
  exact h (if_pos other)

/-- Without a brace in front, only the tag leads to tool calls. -/
theorem tag_of_calls {js : JsonLib} {text : Bytes} (h : parseToolCalls js text ≠ .ok [])
    (other : (text.find? fun b => !isBlank b) ≠ some 0x7B) : (text.find? fun b => !isBlank b) = some 0x3C := by
  have brace := brace_of_calls h
  rw [← trim_head?] at other ⊢
  unfold callText at brace
  dsimp only at brace
  split at brace
  next tagged =>
    obtain ⟨rest, eq⟩ := tagged
    rw [← eq]
    rfl
  · exact absurd brace other

/-- The text can still turn out to be a tool call: blanks, and then nothing or a brace. -/
def held (s : Bytes) : Bool :=
  match s.find? fun b => !isBlank b with
  | none => true
  | some lead => lead == 0x7B

theorem held_of_append {s t : Bytes} (h : held (s ++ t) = true) : held s = true := by
  unfold held at *
  rw [List.find?_append] at h
  cases found : s.find? fun b => !isBlank b with
  | none => rfl
  | some lead => simpa [found] using h

/-- Text that begins otherwise is known once its first ASCII character is there. -/
theorem held_of_other {front rest : Bytes} {lead : UInt8} (blank : ∀ b ∈ front, isBlank b = true)
    (solid : isBlank lead = false) (other : lead ≠ 0x7B) : held (front ++ lead :: rest) = false := by
  have first : (front ++ lead :: rest).find? (fun b => !isBlank b) = some lead := by
    rw [List.find?_append, List.find?_eq_none.mpr (by simpa using blank)]
    simp [solid]
  rw [held, first]
  simpa using other

theorem held_of_brace {s : Bytes} (h : (s.find? fun b => !isBlank b) = some 0x7B) : held s = true := by
  rw [held, h]
  rfl

/-- The text and the log-probs of a content chunk. -/
abbrev Part := Bytes × List (TokenLogprob Rat)

namespace ChatStream

section
variable (sv : Server)

def contentChunk (wantLp : Bool) (part : Part) : Json :=
  chunk sv (.object [("content", .str part.1)]) .null (if wantLp then makeLogprobsContent sv.tok part.2 else .null)

def toolsChunk (calls : List ToolCall) : Json :=
  chunk sv (.object [("tool_calls", makeToolCalls calls)]) .null .null

def finalChunk (finish : Bytes) : Json := chunk sv (.object []) (.str finish) .null

end

variable {sv : Server} {tools wantLp : Bool} {s s' : ChatStream} {lp : TokenLogprob Rat}
  {done : List (TokenLogprob Rat)} {parts : List Part} {frames : List Json}

theorem sendContent_eq (text : Bytes) (some : text ≠ []) :
    sendContent sv wantLp text s = ([contentChunk sv wantLp (text, s.pendingLp)], { s with pendingLp := [] }) := by
  have nonempty : ¬text.isEmpty = true := by simpa using some
  rw [sendContent, if_neg nonempty]
  rfl

/-- The log-probs that wait for a chunk once the next token is there. -/
def pended (wantLp : Bool) (s : ChatStream) (lp : TokenLogprob Rat) : List (TokenLogprob Rat) :=
  if wantLp then s.pendingLp ++ [lp] else s.pendingLp

/-- What one round can do: nothing complete yet, held back, released, or live text. -/
def Round (wantLp : Bool) (s : ChatStream) (lp : TokenLogprob Rat) (new : List Part) (s' : ChatStream) : Prop :=
  ∃ piece detok, s.detok.add lp.id = (piece, detok) ∧
    ((piece = [] ∧ new = [] ∧ s' = { s with detok, pendingLp := pended wantLp s lp }) ∨
      (piece ≠ [] ∧ s.buffering = true ∧ held (s.buffered ++ piece) = true ∧ new = [] ∧
        s' = { s with detok, buffered := s.buffered ++ piece, pendingLp := pended wantLp s lp }) ∨
      (piece ≠ [] ∧ s.buffering = true ∧ held (s.buffered ++ piece) = false ∧
        new = [(s.buffered ++ piece, pended wantLp s lp)] ∧
        s' = { detok, buffered := [], buffering := false, pendingLp := [] }) ∨
      (piece ≠ [] ∧ s.buffering = false ∧ new = [(piece, pended wantLp s lp)] ∧ s' = { s with detok, pendingLp := [] }))

theorem onToken_round (h : onToken sv wantLp s lp = (frames, s')) :
    ∃ new, frames = new.map (contentChunk sv wantLp) ∧ Round wantLp s lp new s' := by
  have pend : (if wantLp then { s with pendingLp := s.pendingLp ++ [lp] } else s) =
      { s with pendingLp := pended wantLp s lp } := by
    unfold pended
    split <;> rfl
  unfold onToken at h
  rw [pend] at h
  dsimp only at h
  rcases hadd : s.detok.add lp.id with ⟨piece, detok⟩
  rw [hadd] at h
  dsimp only at h
  unfold Round held
  rw [hadd]
  split at h
  next none =>
    obtain ⟨rfl, rfl⟩ := Prod.mk.inj h
    exact ⟨[], rfl, piece, detok, rfl, .inl ⟨by simpa using none, rfl, rfl⟩⟩
  next some =>
    have some : piece ≠ [] := by simpa using some
    split at h
    next buffering =>
      split at h
      next blank =>
        obtain ⟨rfl, rfl⟩ := Prod.mk.inj h
        exact ⟨[], rfl, piece, detok, rfl, .inr (.inl ⟨some, buffering, by rw [blank], rfl, rfl⟩)⟩
      next lead first =>
        split at h
        next brace =>
          obtain ⟨rfl, rfl⟩ := Prod.mk.inj h
          exact ⟨[], rfl, piece, detok, rfl,
            .inr (.inl ⟨some, buffering, by rw [first]; simpa using brace, rfl, rfl⟩)⟩
        next other =>
          rw [sendContent_eq _ (by simp [some])] at h
          obtain ⟨rfl, rfl⟩ := Prod.mk.inj h
          exact ⟨[_], rfl, piece, detok, rfl,
            .inr (.inr (.inl ⟨some, buffering, by rw [first]; simpa using other, rfl, rfl⟩))⟩
    next live =>
      rw [sendContent_eq _ some] at h
      obtain ⟨rfl, rfl⟩ := Prod.mk.inj h
      exact ⟨[_], rfl, piece, detok, rfl, .inr (.inr (.inr ⟨some, by simpa using live, rfl, rfl⟩))⟩

/-- After some tokens the chunks sent hold the returned text, each log-prob is sent or pending, and while the stream
holds back it has sent nothing. -/
structure Streaming (sv : Server) (tools wantLp : Bool) (done : List (TokenLogprob Rat)) (parts : List Part)
    (s : ChatStream) : Prop where
  tok : s.detok.tok = sv.tok
  ids : s.detok.ids = done.map (·.id)
  caught : utf8CompleteLen s.detok.full ≤ s.detok.emitted
  logprobs : parts.flatMap (·.2) ++ s.pendingLp = if wantLp then done else []
  whole : ∀ later, Valid (s.detok.full ++ later) → Valid s.detok.returned ∧ ∀ part ∈ parts, Valid part.1
  holds : s.buffering = true → tools = true ∧ parts = [] ∧ s.buffered = s.detok.returned ∧ held s.detok.returned = true
  live : s.buffering = false → parts.flatMap (·.1) = s.detok.returned ∧ (tools = true → held s.detok.returned = false)
  owed : s.buffering = false → wantLp = true → Valid s.detok.full →
    (s.pendingLp = [] ↔ ∀ lp ∈ done.getLast?, sv.tok.tokenText lp.id ≠ [])

theorem streaming_start (sv : Server) (tools wantLp : Bool) :
    Streaming sv tools wantLp [] [] { detok := .new sv.tok, buffering := tools } where
  tok := rfl
  ids := rfl
  caught := by simp [StreamingDetokenizer.full, utf8CompleteLen]
  logprobs := by simp
  whole := by simp [StreamingDetokenizer.returned, Utf8.valid_nil]
  holds := by simp [StreamingDetokenizer.returned, held]
  live := by
    rintro rfl
    simp [StreamingDetokenizer.returned]
  owed := by simp

namespace Streaming

variable {piece : Bytes} {detok : StreamingDetokenizer}

theorem full_eq (h : Streaming sv tools wantLp done parts s) : s.detok.full = sv.tok.decode (done.map (·.id)) := by
  rw [StreamingDetokenizer.full, h.tok, h.ids]

theorem pended_eq (h : Streaming sv tools wantLp done parts s) (lp : TokenLogprob Rat) :
    parts.flatMap (·.2) ++ pended wantLp s lp = if wantLp then done ++ [lp] else [] := by
  have before := h.logprobs
  unfold pended
  cases wantLp with
  | true =>
    rw [if_pos rfl] at before ⊢
    rw [if_pos rfl, ← List.append_assoc, before]
  | false => simpa using before

/-- The next piece of a well-formed text is whole characters, and so is everything before it. -/
theorem whole_next (h : Streaming sv tools wantLp done parts s) (hadd : s.detok.add lp.id = (piece, detok))
    {later : Bytes} (valid : Valid (detok.full ++ later)) :
    Valid piece ∧ Valid detok.returned ∧ ∀ part ∈ parts, Valid part.1 := by
  have grown := StreamingDetokenizer.add_full hadd
  rw [grown, List.append_assoc] at valid
  obtain ⟨before, sent⟩ := h.whole _ valid
  rw [← List.append_assoc, ← grown] at valid
  obtain ⟨now, after⟩ := StreamingDetokenizer.add_valid hadd valid before
  exact ⟨now, after, sent⟩

theorem silent_iff (h : Streaming sv tools wantLp done parts s) (hadd : s.detok.add lp.id = (piece, detok))
    (valid : Valid detok.full) : piece = [] ↔ sv.tok.tokenText lp.id = [] := by
  rw [StreamingDetokenizer.add_nil_iff hadd h.caught valid, h.tok, Tokenizer.decode_singleton]

theorem round {new : List Part} (h : Streaming sv tools wantLp done parts s) (step : Round wantLp s lp new s') :
    Streaming sv tools wantLp (done ++ [lp]) (parts ++ new) s' := by
  obtain ⟨piece, detok, hadd, what⟩ := step
  obtain ⟨tok, ids, returned⟩ := StreamingDetokenizer.add_spec hadd
  have caught := StreamingDetokenizer.add_caught hadd
  have tok' : detok.tok = sv.tok := tok.trans h.tok
  have ids' : detok.ids = (done ++ [lp]).map (·.id) := by rw [ids, h.ids, List.map_append]; rfl
  have last (P : TokenLogprob Rat → Prop) : (∀ x ∈ (done ++ [lp]).getLast?, P x) ↔ P lp := by simp
  obtain ⟨rfl, rfl, rfl⟩ | ⟨some, buffering, holds, rfl, rfl⟩ | ⟨some, buffering, freed, rfl, rfl⟩ | ⟨some, live, rfl, rfl⟩ :=
    what
  · -- nothing complete: the log-prob stays pending
    rw [List.append_nil] at returned
    refine ⟨tok', ids', caught, ?_, fun later valid => ?_, fun b => ?_, fun l => ?_, fun l want valid => ?_⟩
    · rw [List.append_nil]
      exact h.pended_eq lp
    · rw [List.append_nil]
      exact (h.whole_next hadd valid).2
    · rw [List.append_nil]
      dsimp only
      rw [returned]
      exact h.holds b
    · rw [List.append_nil]
      dsimp only
      rw [returned]
      exact h.live l
    · have silent := (h.silent_iff hadd valid).mp rfl
      rw [last]
      simp [pended, want, silent]
  · -- held back
    obtain ⟨on, none, same, -⟩ := h.holds buffering
    refine ⟨tok', ids', caught, ?_, fun later valid => ?_, fun _ => ?_, fun l => ?_, fun l => ?_⟩
    · rw [List.append_nil]
      exact h.pended_eq lp
    · rw [List.append_nil]
      exact (h.whole_next hadd valid).2
    · dsimp only
      rw [returned, ← same]
      exact ⟨on, by rw [none]; rfl, rfl, holds⟩
    · cases buffering.symm.trans l
    · cases buffering.symm.trans l
  · -- released: all of the text so far in one chunk
    obtain ⟨on, rfl, same, -⟩ := h.holds buffering
    rw [same] at freed ⊢
    rw [← returned] at freed ⊢
    refine ⟨tok', ids', caught, ?_, fun later valid => ?_, nofun, fun _ => ⟨by simp, fun _ => freed⟩,
      fun _ _ valid => ?_⟩
    · simpa using h.pended_eq lp
    · obtain ⟨-, after, -⟩ := h.whole_next hadd valid
      exact ⟨after, by simpa using after⟩
    · rw [last]
      exact iff_of_true rfl (mt (h.silent_iff hadd valid).mpr some)
  · -- live text
    obtain ⟨before, freed⟩ := h.live live
    refine ⟨tok', ids', caught, ?_, fun later valid => ?_, fun b => ?_,
      fun _ => ⟨?_, fun on => ?_⟩,
      fun _ _ valid => ?_⟩
    · simpa using h.pended_eq lp
    · obtain ⟨now, after, sent⟩ := h.whole_next hadd valid
      refine ⟨after, fun part hp => ?_⟩
      rcases List.mem_append.mp hp with hp | hp
      · exact sent part hp
      · rw [List.mem_singleton.mp hp]
        exact now
    · cases live.symm.trans b
    · dsimp only
      rw [returned, List.flatMap_append, before]
      simp
    · rw [← Bool.not_eq_true]
      dsimp only
      rw [returned]
      exact fun still => absurd (held_of_append still) (by simp [freed on])
    · rw [last]
      exact iff_of_true rfl (mt (h.silent_iff hadd valid).mpr some)

/-- The whole drain: the induction is on the tokens that are left. -/
theorem drain {rest : List (TokenLogprob Rat)} (h : Streaming sv tools wantLp done parts s)
    (run : drain sv wantLp s rest = (frames, s')) :
    ∃ new, frames = new.map (contentChunk sv wantLp) ∧ Streaming sv tools wantLp (done ++ rest) (parts ++ new) s' := by
  induction rest generalizing done parts s frames with
  | nil =>
    obtain ⟨rfl, rfl⟩ := Prod.mk.inj run
    exact ⟨[], rfl, by simpa using h⟩
  | cons lp rest ih =>
    unfold ChatStream.drain at run
    rcases first : ChatStream.onToken sv wantLp s lp with ⟨now, s₁⟩
    rcases more : ChatStream.drain sv wantLp s₁ rest with ⟨later, s₂⟩
    rw [first] at run
    dsimp only at run
    rw [more] at run
    obtain ⟨rfl, rfl⟩ := Prod.mk.inj run
    obtain ⟨new, rfl, step⟩ := onToken_round first
    obtain ⟨new', rfl, last⟩ := ih (h.round step) more
    refine ⟨new ++ new', by rw [List.map_append], ?_⟩
    simpa using last

end Streaming

end ChatStream

/-! ### The end of the stream -/

namespace Generated

variable (r : Generated)

/-- The generated text. -/
def text (tok : Tokenizer) : Bytes := tok.decode r.ids

/-- The same tokens without log-probs. -/
def quiet : Generated := { r with wantLp := false }

@[simp] theorem quiet_text (tok : Tokenizer) : r.quiet.text tok = r.text tok := rfl

/-- The last log-probs still have a chunk to go with: the text that was held back, or the text of the last token. -/
def KeepsLogprobs (tok : Tokenizer) (tools : Bool) : Prop :=
  r.emitted = [] ∨
    if tools = true ∧ held (r.text tok) = true then r.text tok ≠ []
    else ∀ lp ∈ r.emitted.getLast?, tok.tokenText lp.id ≠ []

end Generated

namespace ChatStream

variable {sv : Server} {tools : Bool} {r : Generated} {parts : List Part} {s : ChatStream}

/-- The parts are the text, and all its log-probs but the lost ones. -/
structure Content (sv : Server) (tools : Bool) (r : Generated) (parts : List Part) (lost : List (TokenLogprob Rat)) :
    Prop where
  texts : parts.flatMap (·.1) = r.text sv.tok
  logprobs : parts.flatMap (·.2) ++ lost = r.logprobs
  whole : Valid (r.text sv.tok) → ∀ part ∈ parts, Valid part.1
  lost : Valid (r.text sv.tok) → r.wantLp = true → (lost = [] ↔ r.KeepsLogprobs sv.tok tools)

theorem Content.all_sent {lost : List (TokenLogprob Rat)} (h : Content sv tools r parts lost) (want : r.wantLp = true)
    (kept : lost = []) : parts.flatMap (·.2) = r.emitted := by
  have all := h.logprobs
  rwa [kept, List.append_nil, Generated.logprobs, if_pos want] at all

/-- The chunk of a text that may be empty. -/
def partOf (text : Bytes) (pending : List (TokenLogprob Rat)) : List Part := if text = [] then [] else [(text, pending)]

theorem partOf_valid (text : Bytes) (pending : List (TokenLogprob Rat)) :
    (∀ part ∈ partOf text pending, Valid part.1) ↔ Valid text := by
  unfold partOf
  split
  next none =>
    subst none
    exact iff_of_true nofun Utf8.valid_nil
  · simp

theorem Content.valid_iff {lost : List (TokenLogprob Rat)} (h : Content sv tools r parts lost) :
    (∀ part ∈ parts, Valid part.1) ↔ Valid (r.text sv.tok) := by
  refine ⟨fun valid => ?_, h.whole⟩
  rw [← h.texts]
  refine .flatten fun text ht => ?_
  obtain ⟨part, hp, rfl⟩ := List.mem_map.mp ht
  exact valid part hp

theorem sendContent_frames (sv : Server) (wantLp : Bool) (text : Bytes) (s : ChatStream) :
    (sendContent sv wantLp text s).1 = (partOf text s.pendingLp).map (contentChunk sv wantLp) := by
  unfold partOf
  split
  next none =>
    subst none
    rfl
  next some => rw [sendContent_eq _ some]; rfl

namespace Streaming

variable (h : Streaming sv tools r.wantLp r.emitted parts s)

include h

theorem text_eq : s.detok.full = r.text sv.tok := h.full_eq

theorem returned_eq (valid : Valid (r.text sv.tok)) : s.detok.returned = r.text sv.tok := by
  rw [← h.text_eq] at valid ⊢
  exact StreamingDetokenizer.returned_of_valid h.caught valid

theorem returned_tail : s.detok.returned ++ s.detok.finish.1 = r.text sv.tok := by
  rw [← h.text_eq]
  exact List.take_append_drop _ _

theorem content_live (live : s.buffering = false) :
    Content sv tools r (parts ++ partOf s.detok.finish.1 s.pendingLp)
      (if s.detok.finish.1 = [] then s.pendingLp else []) := by
  obtain ⟨texts, freed⟩ := h.live live
  have all := h.returned_tail
  refine ⟨?_, ?_, fun valid => ?_, fun valid want => ?_⟩
  · rw [List.flatMap_append, texts, ← all]
    unfold partOf
    split
    next none => rw [none]; rfl
    next some => simp
  · rw [Generated.logprobs, ← h.logprobs]
    unfold partOf
    split <;> simp
  · have full : Valid (s.detok.full ++ []) := by rwa [List.append_nil, h.text_eq]
    obtain ⟨before, sent⟩ := h.whole [] full
    intro part hp
    rcases List.mem_append.mp hp with hp | hp
    · exact sent part hp
    · unfold partOf at hp
      split at hp
      · cases hp
      · rw [List.mem_singleton.mp hp]
        exact .of_append (all ▸ valid) before
  · have same := h.returned_eq valid
    have none : s.detok.finish.1 = [] := by
      rw [← same] at all
      exact List.append_right_eq_self.mp all
    rw [if_pos none, Generated.KeepsLogprobs, h.owed live want (h.text_eq ▸ valid)]
    have plain : ¬(tools = true ∧ held (r.text sv.tok) = true) := by
      rintro ⟨on, still⟩
      rw [← same, freed on] at still
      cases still
    rw [if_neg plain]
    constructor
    · exact .inr
    · rintro (empty | last)
      · simp [empty]
      · exact last

theorem content_held (buffering : s.buffering = true) :
    Content sv tools r (partOf (s.buffered ++ s.detok.finish.1) s.pendingLp)
      (if s.buffered ++ s.detok.finish.1 = [] then s.pendingLp else []) := by
  obtain ⟨on, rfl, same, still⟩ := h.holds buffering
  have logprobs := h.logprobs
  have all := h.returned_tail
  rw [same, all]
  refine ⟨?_, ?_, fun valid => ?_, fun valid want => ?_⟩
  · unfold partOf
    split
    next none => rw [none]; rfl
    next some => simp
  · rw [Generated.logprobs, ← logprobs]
    unfold partOf
    split <;> simp
  · unfold partOf
    split
    · nofun
    · simpa using valid
  · have whole : held (r.text sv.tok) = true := by rw [← h.returned_eq valid, still]
    simp only [want, List.flatMap_nil, List.nil_append, if_true] at logprobs
    simp only [Generated.KeepsLogprobs, on, whole, and_self, if_true, logprobs]
    by_cases none : r.text sv.tok = []
    · simp [none]
    · simp [none]

/-- With tools on, a stream that no longer holds back at the end did not begin with a brace. -/
theorem no_brace (live : s.buffering = false) (on : tools = true) :
    ((r.text sv.tok).find? fun b => !isBlank b) ≠ some 0x7B := by
  intro brace
  have still := held_of_brace brace
  rw [← h.returned_tail] at still
  cases (held_of_append still).symm.trans ((h.live live).2 on)

/-- A stream that still holds back at the end and finds more than nothing in the text began with a brace. -/
theorem brace (buffering : s.buffering = true) (found : parseToolCalls sv.js (r.text sv.tok) ≠ .ok []) :
    ((r.text sv.tok).find? fun b => !isBlank b) = some 0x7B := by
  by_contra other
  have tag := tag_of_calls found other
  obtain ⟨solid, front, rest, eq, blank⟩ := List.find?_eq_some_iff_append.mp tag
  have reached : front.length < s.detok.emitted := by
    have shown : front.length < utf8CompleteLen (front ++ 0x3C :: rest) := lt_utf8CompleteLen (by decide)
    rw [← eq, ← h.text_eq] at shown
    exact shown.trans_le h.caught
  have begun : ∃ rest', s.detok.returned = front ++ 0x3C :: rest' := by
    refine ⟨rest.take (s.detok.emitted - front.length - 1), ?_⟩
    rw [StreamingDetokenizer.returned, h.text_eq, eq, List.take_append, List.take_of_length_le (by omega)]
    congr 1
    rw [← List.take_succ_cons]
    congr 1
    omega
  obtain ⟨rest', eq'⟩ := begun
  have still := (h.holds buffering).2.2.2
  rw [eq', held_of_other (fun b hb => by simpa using blank b hb) (by simpa using solid) (by decide)] at still
  cases still

end Streaming

/-- The three ends of a stream: content, tool calls, or the exception of the tool-call parser. -/
theorem chatFrames_cases (sv : Server) (tools : Bool) (r : Generated) :
    (∃ parts lost, Content sv tools r parts lost ∧
      sv.chatFrames tools r = (roleChunk sv :: (parts.map (contentChunk sv r.wantLp) ++
        [finalChunk sv (finishReasonOf r.finishReason)]), none) ∧
      (tools = false ∨ parseToolCalls sv.js (r.text sv.tok) = .ok [] ∨
        ((r.text sv.tok).find? fun b => !isBlank b) ≠ some 0x7B)) ∨
    (∃ calls, tools = true ∧ parseToolCalls sv.js (r.text sv.tok) = .ok calls ∧ calls ≠ [] ∧
      ((r.text sv.tok).find? fun b => !isBlank b) = some 0x7B ∧
      sv.chatFrames tools r = ([roleChunk sv, toolsChunk sv calls, finalChunk sv (.ofAscii "tool_calls")], none)) ∨
    (∃ e, tools = true ∧ parseToolCalls sv.js (r.text sv.tok) = .error e ∧
      ((r.text sv.tok).find? fun b => !isBlank b) = some 0x7B ∧ sv.chatFrames tools r = ([roleChunk sv], some e)) := by
  rcases run : drain sv r.wantLp { detok := .new sv.tok, buffering := tools } r.emitted with ⟨frames, s⟩
  obtain ⟨parts, rfl, h⟩ := (streaming_start sv tools r.wantLp).drain run
  rw [List.nil_append, List.nil_append] at h
  unfold Server.chatFrames
  rw [run]
  unfold finishFrames
  cases buffering : s.buffering with
  | false =>
    refine .inl ⟨_, _, h.content_live buffering, ?_, ?_⟩
    · simp only [buffering, Bool.false_eq_true, if_false, sendContent_frames, List.map_append, List.append_assoc]
      rfl
    · cases tools with
      | false => exact .inl rfl
      | true => exact .inr (.inr (h.no_brace buffering rfl))
  | true =>
    obtain ⟨on, none, same, -⟩ := h.holds buffering
    have all : s.buffered ++ s.detok.finish.1 = r.text sv.tok := by rw [same]; exact h.returned_tail
    have content := h.content_held buffering
    subst none
    rw [all] at content
    dsimp only
    rw [if_pos buffering, all]
    cases found : parseToolCalls sv.js (r.text sv.tok) with
    | error e => exact .inr (.inr ⟨e, on, rfl, h.brace buffering (by rw [found]; nofun), rfl⟩)
    | ok calls =>
      cases calls with
      | nil =>
        refine .inl ⟨_, _, content, ?_, .inr (.inl rfl)⟩
        simp only [ok_bind, List.isEmpty_nil, if_true, sendContent_frames]
        rfl
      | cons call calls =>
        exact .inr (.inl ⟨_, on, rfl, nofun, h.brace buffering (by rw [found]; simp), rfl⟩)

/-! ### Which streams can be serialized -/

theorem chunk_clean (sv : Server) {delta finish lp : Json} : (chunk sv delta finish lp).clean = true ↔
    Valid sv.model ∧ delta.clean = true ∧ finish.clean = true ∧ lp.clean = true :=
  makeChatChunk_clean (Utf8Text.valid_tagged "chatcmpl-" sv.counter (by decide))

theorem roleChunk_clean (sv : Server) : (roleChunk sv).clean = true ↔ Valid sv.model := by
  simp (disch := decide) [roleChunk, chunk_clean, Json.text, Utf8Text.check_ofAscii, Utf8Text.valid_ofAscii]

theorem finalChunk_clean (sv : Server) {finish : Bytes} (known : Valid finish) :
    (finalChunk sv finish).clean = true ↔ Valid sv.model := by
  simp [finalChunk, chunk_clean, known]

theorem contentChunk_clean (sv : Server) (wantLp : Bool) (part : Part) :
    (contentChunk sv wantLp part).clean = true ↔
      Valid sv.model ∧ Valid part.1 ∧ (wantLp = true → ∀ lp ∈ part.2, Reportable sv.tok lp) := by
  cases wantLp <;>
    simp (disch := decide) [contentChunk, chunk_clean, Utf8Text.check_ofAscii, makeLogprobsContent_clean]

theorem toolsChunk_clean (sv : Server) (calls : List ToolCall) :
    (toolsChunk sv calls).clean = true ↔ Valid sv.model ∧ ∀ call ∈ calls, call.Clean := by
  simp (disch := decide) [toolsChunk, chunk_clean, Utf8Text.check_ofAscii, makeToolCalls_clean]

theorem valid_finishReasonOf (reason : Bytes) : Valid (finishReasonOf reason) := by
  unfold finishReasonOf
  split
  · exact Utf8Text.valid_ofAscii (by decide)
  · exact Utf8Text.valid_ofAscii (by decide)

/-- The stream of content can be serialized exactly if the text and the log-probs that are sent can. -/
theorem contentFrames_clean {sv : Server} {lost : List (TokenLogprob Rat)} (content : Content sv tools r parts lost)
    (reason : Bytes) :
    (∀ frame ∈ roleChunk sv :: (parts.map (contentChunk sv r.wantLp) ++ [finalChunk sv (finishReasonOf reason)]),
      frame.clean = true) ↔
    Valid sv.model ∧ Valid (r.text sv.tok) ∧
      (r.wantLp = true → ∀ lp ∈ parts.flatMap (·.2), Reportable sv.tok lp) := by
  have final := finalChunk_clean sv (valid_finishReasonOf reason)
  simp only [List.forall_mem_cons, List.forall_mem_append, List.forall_mem_map, roleChunk_clean, contentChunk_clean, final]
  constructor
  · rintro ⟨model, sent, -⟩
    refine ⟨model, content.valid_iff.mp fun part hp => (sent part hp).2.1, fun want lp hlp => ?_⟩
    obtain ⟨part, hp, hlp⟩ := List.mem_flatMap.mp hlp
    exact (sent part hp).2.2 want lp hlp
  · rintro ⟨model, text, sent⟩
    refine ⟨model, fun part hp => ⟨model, content.whole text part hp, fun want lp hlp => ?_⟩, model, nofun⟩
    exact sent want lp (List.mem_flatMap.mpr ⟨part, hp, hlp⟩)

theorem toolFrames_clean (sv : Server) {calls : List ToolCall} (clean : ∀ call ∈ calls, call.Clean) :
    (∀ frame ∈ [roleChunk sv, toolsChunk sv calls, finalChunk sv (.ofAscii "tool_calls")], frame.clean = true) ↔
      Valid sv.model := by
  have known : Valid (Bytes.ofAscii "tool_calls") := Utf8Text.valid_ofAscii (by decide)
  simp only [List.forall_mem_cons, roleChunk_clean, toolsChunk_clean, finalChunk_clean sv known]
  exact ⟨fun h => h.1, fun model => ⟨model, ⟨model, clean⟩, model, nofun⟩⟩

end ChatStream

end Mlxforge
