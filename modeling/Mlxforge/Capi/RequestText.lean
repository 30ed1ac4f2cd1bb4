import Mlxforge.Tokenizer.Detokenizer

/-!
The text of a request behind the C API: the calls of `mlxforge_request_next` over the tokens that its queue yields.
-/

namespace Mlxforge

open Utf8 (Valid)

/-- `mlxforge_request`, as far as its text depends on it. -/
structure RequestText where
  detok : StreamingDetokenizer
  /-- What the token queue yields before it is closed and drained. -/
  tokens : List Int
  done : Bool := false

namespace RequestText

/-- The loop of `request_next`: a chunk, or no text at the end. -/
def nextLoop (detok : StreamingDetokenizer) : List Int → Option Bytes × RequestText
  | [] =>
    let (tail, detok) := detok.finish
    (if tail.isEmpty then none else some tail, { detok, tokens := [], done := true })
  | tok :: tokens =>
    let (piece, detok) := detok.add tok
    if piece.isEmpty then nextLoop detok tokens else (some piece, { detok, tokens })

def requestNext (r : RequestText) : Option Bytes × RequestText := if r.done then (none, r) else nextLoop r.detok r.tokens

/-- The chunks of a number of calls, and the request after them. -/
def calls : Nat → RequestText → List Bytes × RequestText
  | 0, r => ([], r)
  | n + 1, r =>
    let (chunk, r) := r.requestNext
    let (chunks, r) := calls n r
    (chunk.toList ++ chunks, r)

def ofTokens (tok : Tokenizer) (ids : List Int) : RequestText := { detok := .new tok, tokens := ids }

variable {r r' : RequestText} {d : StreamingDetokenizer} {tokens : List Int} {res : Option Bytes}

/-- All the text there is, returned or not. -/
def text (r : RequestText) : Bytes := r.detok.full ++ r.detok.tok.decode r.tokens

/-- At the end nothing is left to return. -/
def Ended (r : RequestText) : Prop := r.done = true → r.tokens = [] ∧ r.detok.returned = r.detok.full

/-- What one call leaves: the text is the same, what it returned is out, and it either used up a token or ended. -/
structure Returns (r : RequestText) (res : Option Bytes) (r' : RequestText) : Prop where
  text : r'.text = r.text
  returned : r'.detok.returned = r.detok.returned ++ res.getD []
  progress : r'.done = false → r'.tokens.length < r.tokens.length
  ended : r'.Ended

theorem nextLoop_returns (h : nextLoop d tokens = (res, r')) : Returns { detok := d, tokens } res r' := by
  induction tokens generalizing d with
  | nil =>
    cases hf : d.finish with
    | mk tail d' =>
      obtain ⟨full, tok, returned, all⟩ := StreamingDetokenizer.finish_spec hf
      simp only [nextLoop, hf] at h
      obtain ⟨rfl, rfl⟩ := Prod.mk.inj h
      refine ⟨by simp [text, full], ?_, nofun, fun _ => ⟨rfl, all⟩⟩
      cases tail <;> exact returned
  | cons tok tokens ih =>
    cases ha : d.add tok with
    | mk piece d' =>
      obtain ⟨sameTok, -, returned⟩ := StreamingDetokenizer.add_spec ha
      have full : d'.full ++ d'.tok.decode tokens = d.full ++ d.tok.decode (tok :: tokens) := by
        rw [StreamingDetokenizer.add_full ha, sameTok, d.tok.decode_cons tok tokens, List.append_assoc]
      simp only [nextLoop, ha] at h
      split at h
      next empty =>
        have rest := ih h
        have none : piece = [] := List.isEmpty_iff.mp empty
        rw [none, List.append_nil] at returned
        exact ⟨rest.text.trans full, by rw [rest.returned, returned],
          fun more => Nat.lt_succ_of_lt (rest.progress more), rest.ended⟩
      next =>
        obtain ⟨rfl, rfl⟩ := Prod.mk.inj h
        exact ⟨full, returned, fun _ => Nat.lt_succ_self _, nofun⟩

theorem requestNext_returns (ended : r.Ended) (h : r.requestNext = (res, r')) : Returns r res r' := by
  unfold requestNext at h
  split at h
  next done =>
    obtain ⟨rfl, rfl⟩ := Prod.mk.inj h
    exact ⟨rfl, by simp, by simp [done], ended⟩
  next open' =>
    have step := nextLoop_returns h
    exact ⟨step.text, step.returned, step.progress, step.ended⟩

/-- If the text is well-formed as a whole, a chunk is whole characters. -/
theorem nextLoop_valid (h : nextLoop d tokens = (res, r')) (whole : Valid (d.full ++ d.tok.decode tokens))
    (before : Valid d.returned) : (∀ chunk ∈ res, Valid chunk) ∧ Valid r'.detok.returned := by
  induction tokens generalizing d with
  | nil =>
    cases hf : d.finish with
    | mk tail d' =>
      obtain ⟨full, tok, returned, all⟩ := StreamingDetokenizer.finish_spec hf
      simp only [nextLoop, hf] at h
      obtain ⟨rfl, rfl⟩ := Prod.mk.inj h
      rw [Tokenizer.decode_nil, List.append_nil] at whole
      have after : Valid d'.returned := by rwa [all, full]
      refine ⟨fun chunk hc => ?_, after⟩
      split at hc
      · cases hc
      · obtain rfl := Option.some.inj hc
        exact .of_append (returned ▸ after) before
  | cons tok tokens ih =>
    cases ha : d.add tok with
    | mk piece d' =>
      have sameTok := (StreamingDetokenizer.add_spec ha).1
      have whole : Valid (d'.full ++ d'.tok.decode tokens) := by
        rw [StreamingDetokenizer.add_full ha, sameTok, List.append_assoc, ← Tokenizer.decode_cons]
        exact whole
      obtain ⟨valid, after⟩ := StreamingDetokenizer.add_valid ha whole before
      simp only [nextLoop, ha] at h
      split at h
      · exact ih h whole after
      · obtain ⟨rfl, rfl⟩ := Prod.mk.inj h
        exact ⟨fun chunk hc => Option.some.inj hc ▸ valid, after⟩

theorem requestNext_valid (h : r.requestNext = (res, r')) (whole : Valid r.text) (before : Valid r.detok.returned) :
    (∀ chunk ∈ res, Valid chunk) ∧ Valid r'.detok.returned := by
  unfold requestNext at h
  split at h
  · obtain ⟨rfl, rfl⟩ := Prod.mk.inj h
    exact ⟨nofun, before⟩
  · exact nextLoop_valid h whole before

/-- Calls one after another; one more than there are tokens reaches the end. -/
theorem calls_returned (n : Nat) (ended : r.Ended) :
    (calls n r).2.text = r.text ∧ (calls n r).2.detok.returned = r.detok.returned ++ (calls n r).1.flatten ∧
      (r.done = true ∨ r.tokens.length < n →
        (calls n r).2.tokens = [] ∧ (calls n r).2.detok.returned = (calls n r).2.detok.full) := by
  induction n generalizing r with
  | zero =>
    refine ⟨rfl, by simp [calls], fun h => ?_⟩
    rcases h with done | h
    · exact ended done
    · exact absurd h (Nat.not_lt_zero _)
  | succ n ih =>
    cases hr : r.requestNext with
    | mk res r' =>
      have step := requestNext_returns ended hr
      obtain ⟨text, returned, finish⟩ := ih step.ended
      have flat : res.getD [] = res.toList.flatten := by cases res <;> simp
      simp only [calls, hr]
      refine ⟨text.trans step.text, ?_, fun h => finish ?_⟩
      · rw [returned, step.returned, flat, List.flatten_append, List.append_assoc]
      · cases hd : r'.done with
        | true => exact .inl rfl
        | false =>
          have less := step.progress hd
          rcases h with done | h
          · rw [requestNext, if_pos done] at hr
            obtain ⟨-, rfl⟩ := Prod.mk.inj hr
            simp [done] at hd
          · exact .inr (by omega)

theorem calls_valid (n : Nat) (ended : r.Ended) (whole : Valid r.text) (before : Valid r.detok.returned) :
    ∀ chunk ∈ (calls n r).1, Valid chunk := by
  induction n generalizing r with
  | zero => simp [calls]
  | succ n ih =>
    cases hr : r.requestNext with
    | mk res r' =>
      have step := requestNext_returns ended hr
      obtain ⟨valid, after⟩ := requestNext_valid hr whole before
      have rest := ih step.ended (step.text ▸ whole) after
      intro chunk hc
      simp only [calls, hr, List.mem_append, Option.mem_toList] at hc
      rcases hc with hc | hc
      · exact valid chunk hc
      · exact rest chunk hc

/-- Every chunk of a request is whole characters exactly if its text is: the last chunk is whatever bytes are left. -/
theorem chunks_valid_iff (tok : Tokenizer) (ids : List Int) :
    (∀ n, ∀ chunk ∈ (calls n (ofTokens tok ids)).1, Valid chunk) ↔ Valid (ids.flatMap tok.tokenText) := by
  have text : (ofTokens tok ids).text = ids.flatMap tok.tokenText := by
    rw [← Tokenizer.decode_eq]
    simp [RequestText.text, ofTokens, StreamingDetokenizer.full]
  rw [← text]
  constructor
  · intro valid
    obtain ⟨same, returned, finish⟩ := calls_returned (r := ofTokens tok ids) (ids.length + 1) (by intro ended; cases ended)
    obtain ⟨drained, all⟩ := finish (.inr (Nat.lt_succ_self _))
    rw [← same, RequestText.text, drained, Tokenizer.decode_nil, List.append_nil, ← all, returned]
    exact .append Utf8.valid_nil (.flatten (valid _))
  · intro whole n
    exact calls_valid n (by intro ended; cases ended) whole Utf8.valid_nil

/-- A token for the first byte of a character of three. -/
def byteTokenizer : Tokenizer :=
  { impl := .spm { idToToken := [Bytes.ofAscii "<0xE2>"], specialIds := [], byteTokenValue := [(0, 0xE2)] }, bosId := -1 }

/-- Generation that ends after that byte returns it. -/
theorem chunk_of_half_character :
    ¬∀ n, ∀ chunk ∈ (calls n (ofTokens byteTokenizer [0])).1, Valid chunk := by
  intro h
  exact absurd (h 1 [0xE2] (by decide)) (by decide)

end RequestText

end Mlxforge
