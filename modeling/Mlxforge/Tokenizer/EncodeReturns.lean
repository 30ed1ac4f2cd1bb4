import Mlxforge.Tokenizer.BpeAgreement
import Mlxforge.Tokenizer.Tokenizer

/-!
Where the scan for literals comes to its end. An added token with an empty content is in the table but adds no first
byte: it matches, over and over, where a byte begins some literal and no other literal is there.
-/

namespace Mlxforge

namespace LiteralTable

variable (table : LiteralTable)

/-- What is left of the text wherever the scan stands, as long as it moves. -/
inductive Reaches : Bytes → Bytes → Prop where
  | here (rest : Bytes) : Reaches rest rest
  | byte {c : UInt8} {rest later : Bytes} (plain : table.literalAt (c :: rest) = none) (reached : Reaches rest later) :
      Reaches (c :: rest) later
  | literal {rest lit later : Bytes} {id : Int} (found : table.literalAt rest = some (lit, id)) (some_lit : lit ≠ [])
      (reached : Reaches (rest.drop lit.length) later) : Reaches rest later

/-- The byte begins a literal, only an empty one is there. -/
def Stuck (c : UInt8) (rest : Bytes) : Prop :=
  c ∈ table.firstBytes ∧ (∃ id, ([], id) ∈ table.literals) ∧ ∀ p ∈ table.literals, p.1 <+: c :: rest → p.1 = []

/-- Longest first. -/
def Sorted : Prop := table.literals.Pairwise fun a b => b.1.length ≤ a.1.length

variable {table} {encodePlain : Bytes → List Int}

theorem stuck_iff (sorted : table.Sorted) {c : UInt8} {rest : Bytes} :
    table.Stuck c rest ↔ ∃ id, table.literalAt (c :: rest) = some ([], id) := by
  unfold literalAt
  constructor
  · rintro ⟨first, ⟨id, member⟩, only⟩
    rw [if_pos (by simpa using first)]
    cases found : table.literals.find? fun p => p.1.isPrefixOf (c :: rest) with
    | none =>
      have absent := List.find?_eq_none.mp found _ member
      exact absurd rfl absent
    | some p =>
      have front : p.1.isPrefixOf (c :: rest) = true :=
        List.find?_some (p := fun p : Bytes × Int => p.1.isPrefixOf (c :: rest)) found
      have empty := only p (List.mem_of_find?_eq_some found) (List.isPrefixOf_iff_prefix.mp front)
      exact ⟨p.2, by rw [← empty]⟩
  · rintro ⟨id, found⟩
    split at found
    · rename_i first
      refine ⟨by simpa using first, ⟨id, List.mem_of_find?_eq_some found⟩, fun p member front => ?_⟩
      have short := le_of_find? sorted found member (List.isPrefixOf_iff_prefix.mpr front)
      exact List.length_eq_zero_iff.mp (Nat.le_zero.mp short)
    · cases found

/-- The scan has a result unless it gets stuck somewhere. -/
theorem scan_isSome_iff (sorted : table.Sorted) (run text : Bytes) : (table.scan encodePlain run text).isSome ↔
    ∀ c rest, table.Reaches text (c :: rest) → ¬table.Stuck c rest := by
  fun_induction scan table encodePlain run text with
  | case1 run =>
    refine iff_of_true rfl fun c rest reached => ?_
    cases reached with
    | literal found some_lit _ => exact absurd (List.prefix_nil.mp (literalAt_front found).1) some_lit
  | case2 run c rest plain ih =>
    rw [ih]
    constructor
    · intro free c' rest' reached
      cases reached with
      | here =>
        intro stuck
        obtain ⟨id, found⟩ := (stuck_iff sorted).mp stuck
        rw [plain] at found
        cases found
      | byte _ later => exact free c' rest' later
      | literal found _ _ =>
        rw [plain] at found
        cases found
    · exact fun free c' rest' reached => free c' rest' (.byte plain reached)
  | case3 run c rest id found =>
    refine iff_of_false (by simp) fun free => ?_
    exact free c rest (.here _) ((stuck_iff sorted).mpr ⟨id, found⟩)
  | case4 run c rest lit id found some_lit ih =>
    have same : ((table.scan encodePlain [] ((c :: rest).drop lit.length)).bind fun ids =>
        some (encodePlain run ++ id :: ids)).isSome = (table.scan encodePlain [] ((c :: rest).drop lit.length)).isSome := by
      cases table.scan encodePlain [] ((c :: rest).drop lit.length) <;> rfl
    refine Iff.trans (by exact Eq.to_iff (congrArg (· = true) same)) (ih.trans ?_)
    constructor
    · intro free c' rest' reached
      cases reached with
      | here =>
        intro stuck
        obtain ⟨id', found'⟩ := (stuck_iff sorted).mp stuck
        rw [found] at found'
        cases found'
        exact some_lit rfl
      | byte plain _ =>
        rw [found] at plain
        cases plain
      | literal found' _ later =>
        rw [found] at found'
        cases found'
        exact free c' rest' later
    · exact fun free c' rest' reached => free c' rest' (.literal found some_lit reached)

theorem ends_iff_free (sorted : table.Sorted) (text : Bytes) : (∃ ids, Ends table encodePlain text {} ids) ↔
    ∀ c rest, table.Reaches text (c :: rest) → ¬table.Stuck c rest := by
  rw [← @scan_isSome_iff table encodePlain sorted [], Option.isSome_iff_exists]
  exact exists_congr fun ids => ends_iff

/-- Every text is scanned to its end when no literal is empty, or every first byte is a literal by itself. -/
theorem ends_always_iff (sorted : table.Sorted) : (∀ text, ∃ ids, Ends table encodePlain text {} ids) ↔
    (∀ id, ([], id) ∉ table.literals) ∨ ∀ c ∈ table.firstBytes, ∃ id, ([c], id) ∈ table.literals := by
  constructor
  · intro always
    by_cases empty : ∃ id, ([], id) ∈ table.literals
    · refine .inr fun c first => ?_
      have free := (ends_iff_free sorted [c]).mp (always [c]) c [] (.here _)
      have other : ¬∀ p ∈ table.literals, p.1 <+: [c] → p.1 = [] := fun only => free ⟨first, empty, only⟩
      push Not at other
      obtain ⟨⟨lit, id⟩, member, front, some_lit⟩ := other
      obtain rfl : lit = [c] := by
        obtain none | ⟨t, rfl, tail⟩ := List.prefix_cons_iff.mp front
        · exact absurd none some_lit
        · rw [List.prefix_nil.mp tail]
      exact ⟨id, member⟩
    · push Not at empty
      exact .inl empty
  · intro safe text
    refine (ends_iff_free sorted text).mpr fun c rest _ stuck => ?_
    obtain ⟨first, ⟨id, empty⟩, only⟩ := stuck
    obtain none | single := safe
    · exact none id empty
    · obtain ⟨id', member⟩ := single c first
      have := only _ member ⟨rest, rfl⟩
      cases this

end LiteralTable

namespace BpeTokenizer

variable (t : BpeTokenizer)

def literalTable : LiteralTable := ⟨t.specialFirstBytes, t.specialTokens⟩

theorem literalTable_literalAt (rest : Bytes) : t.literalTable.literalAt rest = t.literalAt rest := rfl

theorem encodeLoop_eq_scan (u : UnicodeTables) (run rest : Bytes) :
    t.encodeLoop u run rest = t.literalTable.scan (t.encodePlain u) run rest := by
  fun_induction encodeLoop t u run rest with
  | case1 run => rw [LiteralTable.scan]
  | case2 run c rest plain ih =>
    rw [← literalTable_literalAt] at plain
    rw [LiteralTable.scan_byte plain, ih]
  | case3 run c rest id found =>
    rw [← literalTable_literalAt] at found
    rw [LiteralTable.scan_endless found]
  | case4 run c rest lit id found some_lit ih =>
    rw [← literalTable_literalAt] at found
    rw [LiteralTable.scan_literal found some_lit, ih, Option.map_eq_bind]
    rfl

end BpeTokenizer

namespace EncoderBackend

/-- What the loading functions accept. -/
inductive Accepted (num : Rat → Bytes) (parse : Bytes → Option Json) : EncoderBackend → Prop where
  | bpe {t : BpeTokenizer} (loaded : BpeTokenizer.Loaded num parse t) : Accepted num parse (.bpe t)
  | spm {t : SpmBpeTokenizer} (blob : Bytes) (built : SpmBpeTokenizer.fromBlob parse blob = .ok t) :
      Accepted num parse (.spm t)

def literalTable : EncoderBackend → LiteralTable
  | .bpe t => t.literalTable
  | .spm t => t.literalTable

def encodePlain (u : UnicodeTables) : EncoderBackend → Bytes → List Int
  | .bpe t => t.encodePlain u
  | .spm t => t.encodePlain

def encode (u : UnicodeTables) : EncoderBackend → Bytes → Option (List Int)
  | .bpe t => t.encode u
  | .spm t => t.encode

/-- The loop of `encode` comes to its end. -/
def Returns (u : UnicodeTables) (impl : EncoderBackend) (text : Bytes) : Prop :=
  ∃ ids, LiteralTable.Ends impl.literalTable (impl.encodePlain u) text {} ids

variable {impl : EncoderBackend}

/-- `encode` has the ids that the loop ends with. -/
theorem encode_eq_some_iff (u : UnicodeTables) {text : Bytes} {ids : List Int} : impl.encode u text = some ids ↔
    LiteralTable.Ends impl.literalTable (impl.encodePlain u) text {} ids := by
  rw [LiteralTable.ends_iff]
  cases impl with
  | bpe t =>
    show t.encodeLoop u [] text = some ids ↔ _
    rw [BpeTokenizer.encodeLoop_eq_scan]
    rfl
  | spm t => rfl

variable {num : Rat → Bytes} {parse : Bytes → Option Json}

theorem Accepted.sorted (accepted : impl.Accepted num parse) : impl.literalTable.Sorted := by
  cases accepted with
  | bpe loaded =>
    obtain ⟨blob, built⟩ | ⟨tokens, merges, tokenTypes, pre, built⟩ := loaded
    · obtain ⟨cap, vocab, keys, added, rfl, _⟩ := BpeTokenizer.fromBlob_ok built
      exact longestFirst_sorted _
    · obtain ⟨rfl, _⟩ := BpeTokenizer.fromGguf_ok built
      exact longestFirst_sorted _
  | spm blob built =>
    obtain ⟨vocab, keys, unk, added, rfl, _⟩ := SpmBpeTokenizer.fromBlob_ok built
    exact longestFirst_sorted _

/-- Encoding a text returns unless the scan gets stuck on an empty added token; a tokenizer encodes every text when it
has no such token, or when no byte can get stuck on it. -/
theorem encode_returns_iff (accepted : impl.Accepted num parse) (u : UnicodeTables) :
    (∀ text, impl.Returns u text ↔
      ∀ c rest, impl.literalTable.Reaches text (c :: rest) → ¬impl.literalTable.Stuck c rest) ∧
    ((∀ text, impl.Returns u text) ↔
      (∀ id, ([], id) ∉ impl.literalTable.literals) ∨
        ∀ c ∈ impl.literalTable.firstBytes, ∃ id, ([c], id) ∈ impl.literalTable.literals) :=
  ⟨LiteralTable.ends_iff_free accepted.sorted, LiteralTable.ends_always_iff accepted.sorted⟩

/-- A control token without text, and one with. -/
def emptyControl : EncoderBackend := .bpe (.assembleGguf [[], .ofAscii "ab"] [] [3, 3] "gpt2")

theorem emptyControl_accepted : emptyControl.Accepted (fun _ => []) (fun _ => none) :=
  .bpe (.gguf [[], .ofAscii "ab"] [] [3, 3] "gpt2" rfl)

theorem mem_emptyControl {p : Bytes × Int} :
    p ∈ emptyControl.literalTable.literals ↔ p ∈ [([], 0), (Bytes.ofAscii "ab", 1)] :=
  BpeTokenizer.mem_longestFirst

theorem encode_returns_emptyControl :
    emptyControl.Returns ⟨fun _ => false, fun _ => false, (· == 0x20)⟩ (.ofAscii "ba") ↔ ∀ c rest,
      emptyControl.literalTable.Reaches (.ofAscii "ba") (c :: rest) → ¬emptyControl.literalTable.Stuck c rest :=
  (encode_returns_iff emptyControl_accepted _).1 _

/-- The scan never gets past an `a` that no `b` follows. -/
theorem encode_hangs : ¬∀ impl : EncoderBackend, impl.Accepted (fun _ => []) (fun _ => none) → ∀ u text, impl.Returns u text := by
  intro always
  have returns := always emptyControl emptyControl_accepted ⟨fun _ => false, fun _ => false, (· == 0x20)⟩ (.ofAscii "a")
  have free := (LiteralTable.ends_iff_free emptyControl_accepted.sorted _).mp returns
  refine free 0x61 [] (.here _) ⟨by decide, ⟨0, mem_emptyControl.mpr (by simp)⟩, fun p member front => ?_⟩
  rcases List.mem_pair.mp (mem_emptyControl.mp member) with rfl | rfl
  · rfl
  · revert front
    decide

end EncoderBackend

end Mlxforge
