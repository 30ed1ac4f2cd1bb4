import Mlxforge.Lib.Rows
import Mlxforge.Tokenizer.BpeRoundTrip
import Mlxforge.Tokenizer.EncodeReturns

/-!
What becomes of the literals of added tokens in a round trip. Their contents are stored as text, in a table whose other
entries are spelled in the byte alphabet, and `decode` reads every entry as alphabet symbols.
-/

namespace Mlxforge

namespace LiteralTable

variable (table : LiteralTable)

/-- A run of plain text, or an added token's literal. -/
inductive Chunk where
  | plain (run : Bytes)
  | literal (lit : Bytes) (id : Int)

def Chunk.text : Chunk → Bytes
  | .plain run => run
  | .literal lit _ => lit

def Chunk.ids (encodePlain : Bytes → List Int) : Chunk → List Int
  | .plain run => encodePlain run
  | .literal _ id => [id]

/-- What the scan cuts the text into; `run` is the text since the last literal. -/
def chunks (run rest : Bytes) : List Chunk :=
  match rest with
  | [] => [.plain run]
  | c :: rest =>
    match table.literalAt (c :: rest) with
    | none => chunks (run ++ [c]) rest
    | some (lit, id) =>
      if lit = [] then []
      else .plain run :: .literal lit id :: chunks [] ((c :: rest).drop lit.length)
termination_by rest.length
decreasing_by
  · simp
  · have := List.length_pos_of_ne_nil ‹_›
    simp only [List.length_drop, List.length_cons]
    omega

variable {table}

theorem scan_eq_chunks {encodePlain : Bytes → List Int} (run rest : Bytes)
    (some_text : ∀ p ∈ table.literals, p.1 <:+: rest → p.1 ≠ []) :
    table.scan encodePlain run rest = some ((table.chunks run rest).flatMap (Chunk.ids encodePlain)) ∧
      (table.chunks run rest).flatMap Chunk.text = run ++ rest := by
  fun_induction chunks table run rest with
  | case1 run => exact ⟨by rw [scan]; simp [Chunk.ids], by simp [Chunk.text]⟩
  | case2 run c rest plain ih =>
    obtain ⟨scanned, text⟩ := ih fun p member inside =>
      some_text p member (inside.trans (List.suffix_cons c rest).isInfix)
    rw [scan_byte plain, scanned, text, List.append_assoc]
    exact ⟨rfl, rfl⟩
  | case3 run c rest id found =>
    obtain ⟨front, member⟩ := literalAt_front found
    exact absurd rfl (some_text _ member front.isInfix)
  | case4 run c rest lit id found some_lit ih =>
    obtain ⟨scanned, text⟩ := ih fun p member inside =>
      some_text p member (inside.trans (List.drop_suffix _ _).isInfix)
    obtain ⟨tail, front⟩ := (literalAt_front found).1
    have tail_eq : (c :: rest).drop lit.length = tail := by
      rw [← front, List.drop_left]
    rw [scan_literal found some_lit, scanned, List.flatMap_cons, List.flatMap_cons, List.flatMap_cons,
      List.flatMap_cons, text, tail_eq, ← front]
    exact ⟨rfl, rfl⟩

theorem mem_chunks {run rest lit : Bytes} {id : Int} (member : .literal lit id ∈ table.chunks run rest) :
    (lit, id) ∈ table.literals ∧ lit <:+: rest := by
  fun_induction chunks table run rest with
  | case1 => simp at member
  | case2 run c rest _ ih =>
    obtain ⟨listed, inside⟩ := ih member
    exact ⟨listed, inside.trans (List.suffix_cons c rest).isInfix⟩
  | case3 => simp at member
  | case4 run c rest lit' id' found some_lit ih =>
    simp only [List.mem_cons, reduceCtorEq, false_or] at member
    rcases member with same | later
    · obtain ⟨rfl, rfl⟩ := Chunk.literal.inj same
      exact ⟨(literalAt_front found).2, (literalAt_front found).1.isInfix⟩
    · obtain ⟨listed, inside⟩ := ih later
      exact ⟨listed, inside.trans (List.drop_suffix _ _).isInfix⟩

theorem literal_mem_chunks {run rest lit : Bytes} {c : UInt8} {id : Int}
    (found : table.literalAt (c :: rest) = some (lit, id)) (some_lit : lit ≠ []) :
    .literal lit id ∈ table.chunks run (c :: rest) := by
  rw [chunks, found]
  show _ ∈ (if lit = [] then [] else _)
  rw [if_neg some_lit]
  simp

end LiteralTable

/-! ### Spellings -/

/-- Every character is a single byte that the alphabet spells as itself: in UTF-8, printable ASCII without the space. -/
def OwnSpelling (lit : Bytes) : Prop := ∀ c ∈ decodeUtf8 lit, ∃ b : UInt8, c.bytes = [b] ∧ printable b.toNat = true

theorem codepoint_cases {s : Bytes} {c : Codepoint} (member : c ∈ decodeUtf8 s) :
    (∃ b : UInt8, c = ⟨b.toNat, [b]⟩) ∨ 2 ≤ c.bytes.length := by
  fun_induction decodeUtf8 s <;> simp +zetaDelta at member <;> grind

theorem decodeUtf8_encodeChar (c : Char) (s : Bytes) :
    ∃ v, decodeUtf8 (String.utf8EncodeChar c ++ s) = ⟨v, String.utf8EncodeChar c⟩ :: decodeUtf8 s := by
  obtain ⟨a, eq, ha⟩ | ⟨a, b, eq, ha, _⟩ | ⟨a, b, d, eq, ha, _⟩ | ⟨a, b, d, e, eq, ha, _⟩ := Utf8.encodeChar_cases c
  · rw [eq, List.singleton_append, decodeUtf8.eq_def]
    simp only
    rw [if_pos ha]
    exact ⟨_, rfl⟩
  · rw [eq, List.cons_append, List.singleton_append, decodeUtf8.eq_def]
    simp only
    rw [if_neg (by omega), if_pos (by rw [Nat.shiftRight_eq_div_pow]; omega)]
    exact ⟨_, rfl⟩
  · rw [eq, List.cons_append, List.cons_append, List.singleton_append, decodeUtf8.eq_def]
    simp only
    rw [if_neg (by omega), if_neg (by rw [Nat.shiftRight_eq_div_pow]; omega),
      if_pos (by rw [Nat.shiftRight_eq_div_pow]; omega)]
    exact ⟨_, rfl⟩
  · rw [eq, List.cons_append, List.cons_append, List.cons_append, List.singleton_append, decodeUtf8.eq_def]
    simp only
    rw [if_neg (by omega), if_neg (by rw [Nat.shiftRight_eq_div_pow]; omega),
      if_neg (by rw [Nat.shiftRight_eq_div_pow]; omega), if_pos (by rw [Nat.shiftRight_eq_div_pow]; omega)]
    exact ⟨_, rfl⟩

/-- In well-formed text only printable ASCII spells itself. -/
theorem ownSpelling_iff_ascii {lit : Bytes} (valid : Utf8.Valid lit) :
    OwnSpelling lit ↔ ∀ b ∈ lit, 0x21 ≤ b.toNat ∧ b.toNat ≤ 0x7E := by
  obtain ⟨cs, rfl⟩ := valid
  induction cs with
  | nil => simp [OwnSpelling, decodeUtf8]
  | cons c cs ih =>
    obtain ⟨v, eq⟩ := decodeUtf8_encodeChar c (Utf8.encode cs)
    have front : (∃ b : UInt8, String.utf8EncodeChar c = [b] ∧ printable b.toNat = true) ↔
        ∀ b ∈ String.utf8EncodeChar c, 0x21 ≤ b.toNat ∧ b.toNat ≤ 0x7E := by
      obtain ⟨a, bytes, ha⟩ | ⟨a, b, bytes, ha, _⟩ | ⟨a, b, d, bytes, ha, _⟩ | ⟨a, b, d, e, bytes, ha, _⟩ :=
        Utf8.encodeChar_cases c
      · simp [bytes, printable]
        omega
      all_goals
        simp [bytes]
        omega
    unfold OwnSpelling at ih ⊢
    rw [Utf8.encode_cons, eq, List.forall_mem_append, ← front, ← ih, List.forall_mem_cons]

theorem fromUni_eq_self (b : UInt8) : fromUni b.toNat = some b ↔ printable b.toNat = true := by
  constructor
  · intro found
    by_contra other
    obtain ⟨i, place, eq⟩ := Option.map_eq_some_iff.mp found
    obtain ⟨inside, here, _⟩ := List.idxOf?_eq_some_iff.mp place
    rw [byteCodepoints_eq, List.length_map, List.length_range] at inside
    simp only [byteCodepoints_eq, List.getElem_map, List.getElem_range] at here
    have same : i = b.toNat := by
      rw [← eq, UInt8.toNat_ofNat_of_lt' inside]
    rw [← same] at here other
    rw [codepointOf, if_neg other] at here
    simp only [printable, Bool.or_eq_true, Bool.and_eq_true, decide_eq_true_eq] at other
    split_ifs at here <;> omega
  · intro ok
    have back := fromUni_codepointOf b
    rwa [codepointOf, if_pos ok] at back

namespace BpeTokenizer

theorem tokenBytes_flatMap (lit : Bytes) :
    tokenBytes lit = (decodeUtf8 lit).flatMap fun c => (fromUni c.value).toList := by
  rw [tokenBytes, List.filterMap_eq_flatMap_toList]

theorem codepoint_short {lit : Bytes} {c : Codepoint} (member : c ∈ decodeUtf8 lit) :
    (fromUni c.value).toList.length ≤ c.bytes.length := by
  have most : (fromUni c.value).toList.length ≤ 1 := by
    cases fromUni c.value <;> simp
  obtain ⟨b, rfl⟩ | long := codepoint_cases member
  · exact most
  · omega

theorem tokenBytes_length_le (lit : Bytes) : (tokenBytes lit).length ≤ lit.length := by
  rw [tokenBytes_flatMap]
  conv_rhs => rw [← decodeUtf8_bytes lit]
  rw [List.length_flatMap, List.length_flatMap]
  exact List.sum_le_sum fun c member => codepoint_short member

theorem tokenBytes_eq_self (lit : Bytes) : tokenBytes lit = lit ↔ OwnSpelling lit := by
  rw [tokenBytes_flatMap]
  conv_lhs => rhs; rw [← decodeUtf8_bytes lit]
  rw [flatMap_eq_flatMap_iff fun c member => codepoint_short member]
  refine forall₂_congr fun c member => ?_
  obtain ⟨b, rfl⟩ | long := codepoint_cases member
  · rw [Option.toList_eq_singleton_iff, fromUni_eq_self]
    constructor
    · exact fun ok => ⟨b, rfl, ok⟩
    · rintro ⟨_, same, ok⟩
      rwa [← List.singleton_inj.mp same] at ok
  · constructor
    · intro same
      rw [← same] at long
      cases found : fromUni c.value <;> simp [found] at long
    · rintro ⟨b, single, _⟩
      simp [single] at long

variable {t : BpeTokenizer} {u : UnicodeTables}

/-! ### Plain runs -/

/-- The symbols of a mapped piece that are looked up. -/
def pieceSymbols (t : BpeTokenizer) (piece : Bytes) : List Bytes :=
  if (t.tokenToId.lookup piece).isSome then [piece] else t.mergeLoop (splitSymbols piece)

/-- The symbols of a run of plain text. -/
def symbols (t : BpeTokenizer) (u : UnicodeTables) (run : Bytes) : List Bytes :=
  (t.pieces u (decodeUtf8 run)).flatMap fun piece => t.pieceSymbols (image piece)

theorem bpePiece_eq (piece : Bytes) : t.bpePiece piece = (t.pieceSymbols piece).filterMap t.tokenToId.lookup := by
  unfold bpePiece pieceSymbols
  cases found : t.tokenToId.lookup piece with
  | none => rfl
  | some id => simp [found]

theorem encodePlain_eq (run : Bytes) : t.encodePlain u run = (t.symbols u run).filterMap t.tokenToId.lookup := by
  rw [symbols, List.filterMap_flatMap]
  exact List.flatMap_congr fun piece _ => bpePiece_eq (image piece)

theorem mergeLoop_nonempty {symbols : List Bytes} (some_text : ∀ s ∈ symbols, s ≠ []) :
    ∀ s ∈ t.mergeLoop symbols, s ≠ [] := by
  fun_induction mergeLoop t symbols with
  | case1 => exact some_text
  | case2 symbols rank a b found ih =>
    refine ih fun s member => ?_
    rcases mem_mergePair member with old | rfl
    · exact some_text s old
    · obtain none_some | ⟨adjacent, _⟩ := bestPair_spec found
      · cases none_some
      have left := some_text a (adjacent.subset (by simp))
      simp [left]

theorem toUni_ne_nil (b : UInt8) : toUni b ≠ [] := by
  obtain ⟨c, eq, _⟩ | ⟨c, d, eq, _⟩ := toUni_cases b
  · simp [eq]
  · simp [eq]

theorem pieces_nonempty {cp : List Codepoint} (some_text : ∀ c ∈ cp, c.bytes ≠ []) : ∀ piece ∈ t.pieces u cp, piece ≠ [] := by
  fun_induction pieces t u cp with
  | case1 => simp
  | case2 c rest ih =>
    intro piece member
    rcases List.mem_cons.mp member with rfl | later
    · have pos : 0 < t.pieceLength u c rest := (matchPiece_bounds u c.value _ t.digitRunMax_pos).1
      obtain ⟨n, eq⟩ := Nat.exists_eq_succ_of_ne_zero pos.ne'
      rw [eq, List.take_succ_cons, List.flatMap_cons]
      simp [some_text c (by simp)]
    · exact ih (fun c' member' => some_text c' (List.mem_of_mem_drop member')) piece later

section
variable (alphabet : t.HasAlphabet) (products : t.HasProducts)

include alphabet products

/-- The symbols of a mapped piece spell parts of the piece, and are in the vocabulary. -/
theorem pieceSymbols_parts {piece : Bytes} (some_text : piece ≠ []) :
    ∃ parts : List Bytes, t.pieceSymbols (image piece) = parts.map image ∧ parts.flatten = piece ∧
      ∀ bs ∈ parts, bs ≠ [] ∧ (t.tokenToId.lookup (image bs)).isSome := by
  unfold pieceSymbols
  split
  · rename_i whole
    exact ⟨[piece], rfl, by simp, by simpa using ⟨some_text, whole⟩⟩
  · have split : splitSymbols (image piece) = (piece.map fun b => [b]).map image := by
      rw [splitSymbols_image, List.map_map]
      exact List.map_congr_left fun b _ => by rw [Function.comp_apply, image_singleton]
    obtain ⟨merged, eq, flatten, known⟩ := mergeLoop_spec products (piece.map fun b => [b]) (by
      intro bs member
      obtain ⟨b, _, rfl⟩ := List.mem_map.mp member
      rw [image_singleton]
      exact alphabet b)
    refine ⟨merged, by rw [split, eq], ?_, fun bs member => ⟨?_, known bs member⟩⟩
    · rw [flatten, ← List.flatMap_def, List.flatMap_singleton']
    · rintro rfl
      have initial : ∀ s ∈ splitSymbols (image piece), s ≠ [] := by
        rw [splitSymbols_image]
        intro s inside
        obtain ⟨b, _, rfl⟩ := List.mem_map.mp inside
        exact toUni_ne_nil b
      have nonempty : ∀ s ∈ t.mergeLoop (splitSymbols (image piece)), s ≠ [] := mergeLoop_nonempty initial
      rw [split, eq] at nonempty
      exact nonempty (image []) (List.mem_map_of_mem member) rfl

theorem symbols_parts (run : Bytes) : ∃ parts : List Bytes, t.symbols u run = parts.map image ∧ parts.flatten = run ∧
    ∀ bs ∈ parts, bs ≠ [] ∧ (t.tokenToId.lookup (image bs)).isSome := by
  have whole : (t.pieces u (decodeUtf8 run)).flatten = run := by
    rw [pieces_flatten, decodeUtf8_bytes]
  have some_text : ∀ piece ∈ t.pieces u (decodeUtf8 run), piece ≠ [] := by
    refine pieces_nonempty fun c member => ?_
    obtain ⟨b, rfl⟩ | long := codepoint_cases member
    · simp
    · exact List.ne_nil_of_length_pos (by omega)
  rw [symbols]
  conv => enter [1, parts, 2, 1, 2]; rw [← whole]
  clear whole
  generalize t.pieces u (decodeUtf8 run) = pieces at some_text
  induction pieces with
  | nil => exact ⟨[], rfl, rfl, by simp⟩
  | cons piece pieces ih =>
    obtain ⟨later, eq, flatten, known⟩ := ih fun p member => some_text p (.tail _ member)
    obtain ⟨front, eq', flatten', known'⟩ := pieceSymbols_parts alphabet products (some_text piece (by simp))
    refine ⟨front ++ later, by simp [eq, eq'], by simp [flatten, flatten'], fun bs member => ?_⟩
    rcases List.mem_append.mp member with here | there
    · exact known' bs here
    · exact known bs there

end

/-! ### The round trip -/

/-- The literals that the text holds are those of added tokens that have text and are not special. -/
def OrdinaryLiterals (t : BpeTokenizer) (text : Bytes) : Prop :=
  ∀ lit id, (lit, id) ∈ t.specialTokens → lit <:+: text → lit ≠ [] ∧ id ∉ t.specialIds

/-- Occurrences of literals do not overlap. -/
def ApartLiterals (t : BpeTokenizer) (text : Bytes) : Prop :=
  ∀ lit id lit' id' before after before' after', (lit, id) ∈ t.specialTokens → (lit', id') ∈ t.specialTokens →
    text = before ++ lit ++ after → text = before' ++ lit' ++ after' →
    before.length < before'.length + lit'.length → before'.length < before.length + lit.length →
    before = before' ∧ lit = lit'

/-- A literal is spelled like itself and has the id it was last listed with; plain text is not spelled like a special
token. -/
def ReadsBack (t : BpeTokenizer) (u : UnicodeTables) : LiteralTable.Chunk → Prop
  | .plain run => ∀ sym ∈ t.symbols u run, ∀ id, t.tokenToId.lookup sym = some id → id ∉ t.specialIds
  | .literal lit id => OwnSpelling lit ∧ t.tokenToId.lookup lit = some id

section
variable (consistent : t.Consistent)

include consistent

theorem decodeId_spelled {bs : Bytes} {id : Int} (found : t.tokenToId.lookup (image bs) = some id) :
    t.decodeId id = if id ∈ t.specialIds then [] else bs := by
  obtain ⟨nonneg, token⟩ := consistent.token found
  have inside : id.toNat < t.idToToken.length := (List.getElem?_eq_some_iff.mp token).1
  unfold decodeId
  rw [if_neg (by omega), List.getD_eq_getElem?_getD, token, Option.getD_some, tokenBytes_image]
  simp

theorem decode_plain (alphabet : t.HasAlphabet) (products : t.HasProducts) (run : Bytes) :
    (t.decode (t.encodePlain u run)).length ≤ run.length ∧
      (t.decode (t.encodePlain u run) = run ↔ t.ReadsBack u (.plain run)) := by
  obtain ⟨parts, eq, flatten, known⟩ := symbols_parts (u := u) alphabet products run
  let back (bs : Bytes) : Bytes := (t.tokenToId.lookup (image bs)).toList.flatMap t.decodeId
  have decoded : t.decode (t.encodePlain u run) = parts.flatMap back := by
    rw [encodePlain_eq, eq, decode, List.filterMap_eq_flatMap_toList, List.flatMap_map, List.flatMap_assoc]
  have each : ∀ bs ∈ parts, ∃ id, t.tokenToId.lookup (image bs) = some id ∧
      back bs = if id ∈ t.specialIds then [] else bs := by
    intro bs member
    obtain ⟨id, found⟩ := Option.isSome_iff_exists.mp (known bs member).2
    refine ⟨id, found, ?_⟩
    show (t.tokenToId.lookup (image bs)).toList.flatMap t.decodeId = _
    rw [found, Option.toList_some, List.flatMap_singleton, decodeId_spelled consistent found]
  have short : ∀ bs ∈ parts, (back bs).length ≤ bs.length := by
    intro bs member
    obtain ⟨id, _, eq⟩ := each bs member
    rw [eq]
    split <;> simp
  have whole : run = parts.flatMap fun bs => bs := by
    rw [List.flatMap_id', flatten]
  constructor
  · rw [decoded]
    conv_rhs => rw [whole]
    rw [List.length_flatMap, List.length_flatMap]
    exact List.sum_le_sum short
  · rw [decoded]
    conv_lhs => rhs; rw [whole]
    rw [flatMap_eq_flatMap_iff short, ReadsBack, eq]
    constructor
    · intro same sym member id found special
      obtain ⟨bs, inside, rfl⟩ := List.mem_map.mp member
      obtain ⟨id', found', eq⟩ := each bs inside
      obtain rfl := Option.some.inj (found.symm.trans found')
      rw [same bs inside, if_pos special] at eq
      exact (known bs inside).1 eq
    · intro ordinary bs inside
      obtain ⟨id, found, eq⟩ := each bs inside
      rw [eq, if_neg (ordinary (image bs) (List.mem_map_of_mem inside) id found)]

end

/-- Where no token has the id, the table holds the empty string. -/
theorem tokenTable_unlisted {size n : Nat} {entries : List (Bytes × Int)} (free : ∀ e ∈ entries, e.2.toNat ≠ n) :
    (tokenTable size entries).getD n [] = [] := by
  unfold tokenTable
  suffices ∀ table : List Bytes, table.getD n [] = [] →
      (entries.foldl (fun table e => table.set e.2.toNat e.1) table).getD n [] = [] by
    refine this _ ?_
    rw [List.getD_eq_getElem?_getD, List.getElem?_replicate]
    split <;> rfl
  induction entries with
  | nil => exact fun _ there => there
  | cons e entries ih =>
    intro table there
    refine ih (fun e' later => free e' (.tail _ later)) _ ?_
    rw [List.getD_eq_getElem?_getD, List.getElem?_set_ne (free e List.mem_cons_self), ← List.getD_eq_getElem?_getD, there]

/-- The text comes back exactly when every chunk does. -/
theorem roundTrip_iff_chunks (u : UnicodeTables) {text : Bytes} (ordinary : t.OrdinaryLiterals text)
    (short : ∀ chunk ∈ t.literalTable.chunks [] text, (t.decode (chunk.ids (t.encodePlain u))).length ≤ chunk.text.length) :
    (∃ ids, t.encode u text = some ids ∧ t.decode ids = text) ↔
      ∀ chunk ∈ t.literalTable.chunks [] text, t.decode (chunk.ids (t.encodePlain u)) = chunk.text := by
  obtain ⟨scanned, whole⟩ := @LiteralTable.scan_eq_chunks t.literalTable (t.encodePlain u) [] text
    fun p member inside => (ordinary p.1 p.2 member inside).1
  have encoded : t.encode u text = some ((t.literalTable.chunks [] text).flatMap (·.ids (t.encodePlain u))) :=
    (encodeLoop_eq_scan t u [] text).trans scanned
  have decoded : t.decode ((t.literalTable.chunks [] text).flatMap (·.ids (t.encodePlain u))) =
      (t.literalTable.chunks [] text).flatMap fun chunk => t.decode (chunk.ids (t.encodePlain u)) := List.flatMap_assoc
  rw [← flatMap_eq_flatMap_iff short, whole, List.nil_append, ← decoded, encoded]
  simp

section
variable {num : Rat → Bytes} {parse : Bytes → Option Json} {blob : Bytes} (built : fromBlob num parse blob = .ok t)
  (distinct : t.DistinctIds)

include built distinct

/-- The id of an added token that is not skipped reads as the token's content, or as nothing where another id was
listed for the content later. -/
theorem decodeId_added {lit : Bytes} {id : Int} (member : (lit, id) ∈ t.specialTokens) (ordinary : id ∉ t.specialIds) :
    t.decodeId id = if t.tokenToId.lookup lit = some id then tokenBytes lit else [] := by
  have consistent := Loaded.consistent (.blob blob built) distinct
  by_cases listed : t.tokenToId.lookup lit = some id
  · obtain ⟨nonneg, token⟩ := consistent.token listed
    have inside : id.toNat < t.idToToken.length := (List.getElem?_eq_some_iff.mp token).1
    unfold decodeId
    rw [if_neg (by omega), if_neg (by simpa using ordinary), if_pos listed, List.getD_eq_getElem?_getD, token,
      Option.getD_some]
  · have nobody : ∀ tok, t.tokenToId.lookup tok ≠ some id := by
      intro tok found
      obtain rfl := distinct tok lit id (.inl found) (.inr member)
      exact listed found
    have empty : t.idToToken.getD id.toNat [] = [] := by
      obtain ⟨cap, vocab, keys, added, rfl, natural⟩ := fromBlob_ok built
      obtain ⟨a, isAdded, eq⟩ := List.mem_map.mp (mem_longestFirst.mp member)
      have nonneg : 0 ≤ id := natural id (List.mem_append_right _ (List.mem_map.mpr ⟨a, isAdded, (Prod.mk.inj eq).2⟩))
      refine tokenTable_unlisted fun e entry same => ?_
      have found : (assemble cap.1 cap.2 vocab keys added).tokenToId.lookup e.1 = some e.2 := mem_entriesOf.mp entry
      have nonneg' := natural e.2 (assemble_listed found)
      obtain rfl : id = e.2 := by omega
      exact nobody e.1 found
    unfold decodeId
    rw [if_neg listed, empty]
    split
    · rfl
    split
    · rfl
    · rfl

theorem chunk_reads (alphabet : t.HasAlphabet) (products : t.HasProducts) (u : UnicodeTables) {text : Bytes}
    (ordinary : t.OrdinaryLiterals text) {chunk : LiteralTable.Chunk} (member : chunk ∈ t.literalTable.chunks [] text) :
    (t.decode (chunk.ids (t.encodePlain u))).length ≤ chunk.text.length ∧
      (t.decode (chunk.ids (t.encodePlain u)) = chunk.text ↔ t.ReadsBack u chunk) := by
  have consistent := Loaded.consistent (.blob blob built) distinct
  cases chunk with
  | plain run => exact decode_plain consistent alphabet products run
  | literal lit id =>
    obtain ⟨listed, inside⟩ := LiteralTable.mem_chunks member
    obtain ⟨some_text, unskipped⟩ := ordinary lit id listed inside
    have read := decodeId_added built distinct listed unskipped
    show (t.decode [id]).length ≤ lit.length ∧ (t.decode [id] = lit ↔ OwnSpelling lit ∧ t.tokenToId.lookup lit = some id)
    rw [decode, List.flatMap_singleton, read]
    split
    · rename_i known
      rw [tokenBytes_eq_self]
      exact ⟨tokenBytes_length_le lit, by simp [known]⟩
    · rename_i known
      exact ⟨Nat.zero_le _, by simp [known, some_text.symm]⟩

end

/-! ### A literal with a space -/

namespace Description

variable {d : Description} {cap : Nat} {pos : 0 < cap} {keys : List Bytes}

theorem distinctIds : (assemble cap pos d.blobVocab keys d.addedList).DistinctIds := by
  have index : ∀ {tok id}, (assemble cap pos d.blobVocab keys d.addedList).Lists tok id → d.tokens[id.toNat]? = some tok := by
    rintro tok id (found | member)
    · exact (blob_indexes.index found).2
    · exact (mem_blobSpecial.mp member).2.1
  intro tok tok' id listed listed'
  exact Option.some.inj ((index listed).symm.trans (index listed'))

end Description

/-- The symbols of the bytes. -/
def alphabet : List Bytes := (List.range 256).map fun b => toUni (UInt8.ofNat b)

theorem mem_alphabet (b : UInt8) : toUni b ∈ alphabet :=
  List.mem_map.mpr ⟨b.toNat, List.mem_range.mpr b.toNat_lt, by rw [UInt8.ofNat_toNat]⟩

theorem alphabet_nodup : alphabet.Nodup := by
  refine List.Nodup.map_on ?_ List.nodup_range
  intro a ha b hb same
  rw [← image_singleton, ← image_singleton] at same
  have byte := List.singleton_inj.mp (image_injective same)
  rw [List.mem_range] at ha hb
  rw [← UInt8.toNat_ofNat_of_lt' ha, byte, UInt8.toNat_ofNat_of_lt' hb]

theorem spaceless_alphabet {s : Bytes} (member : s ∈ alphabet) : 0x20 ∉ s := by
  obtain ⟨b, _, rfl⟩ := List.mem_map.mp member
  rw [← image_singleton]
  exact space_not_mem_image _

theorem oneAdded_nodup : ([((0 : Nat), false)].map (·.1)).Nodup := List.nodup_singleton _

/-- The byte alphabet, and an added token that is not special. -/
def oneAdded (content : Bytes) (outside : content ∉ alphabet) (some_text : content ≠ []) : Description where
  tokens := content :: alphabet
  merges := []
  added := [(0, false)]
  vocab := List.range' 1 256
  preTokenizer := none
  pre := "qwen2"
  tokens_nodup := List.nodup_cons.mpr ⟨outside, alphabet_nodup⟩
  added_nodup := oneAdded_nodup
  added_nonempty := by
    intro a member
    obtain rfl := List.mem_singleton.mp member
    exact ⟨content, rfl, some_text⟩
  vocab_lt := by
    intro i member
    have size : alphabet.length = 256 := by rw [alphabet, List.length_map, List.length_range]
    rw [List.mem_range'_1] at member
    rw [List.length_cons, size]
    omega
  covered := by
    intro i inside
    have size : alphabet.length = 256 := by rw [alphabet, List.length_map, List.length_range]
    rw [List.length_cons, size] at inside
    rcases Nat.eq_zero_or_pos i with rfl | positive
    · exact .inr (by simp)
    · exact .inl (List.mem_range'_1.mpr ⟨positive, by omega⟩)

/-- Its tokenizer. -/
def spacedToken : Description := oneAdded (.ofAscii "a b") (fun member => spaceless_alphabet member (by decide)) (by decide)

def spacedTokenizer : BpeTokenizer := assemble 1 Nat.one_pos spacedToken.blobVocab [] spacedToken.addedList

theorem spacedTokenizer_built : fromBlob (fun _ => []) (fun _ => some spacedToken.toJson) [] = .ok spacedTokenizer :=
  have cap : digitCap (fun _ => []) spacedToken.toJson = .ok ⟨1, by decide⟩ := rfl
  spacedToken.fromBlob_toJson rfl cap

theorem spacedTokenizer_alphabet : spacedTokenizer.HasAlphabet :=
  fun b => Description.blob_indexes.complete (.tail _ (mem_alphabet b))

theorem spacedTokenizer_products : spacedTokenizer.HasProducts := by
  intro a b _ _ rule
  cases rule

theorem spacedTokenizer_literals : spacedTokenizer.specialTokens = [(.ofAscii "a b", 0)] := List.mergeSort_singleton _

theorem spacedTokenizer_ordinary (text : Bytes) : spacedTokenizer.OrdinaryLiterals text := by
  intro lit id member _
  rw [spacedTokenizer_literals] at member
  obtain ⟨rfl, rfl⟩ := Prod.mk.inj (List.mem_singleton.mp member)
  exact ⟨by decide, by decide⟩

/-- The space is white space; there are no letters and no numbers. -/
def spaceOnly : UnicodeTables := ⟨fun _ => false, fun _ => false, (· == 0x20)⟩

end BpeTokenizer

end Mlxforge
