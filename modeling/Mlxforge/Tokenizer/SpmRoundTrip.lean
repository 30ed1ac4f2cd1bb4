import Mlxforge.Lib.Rows
import Mlxforge.Tokenizer.MergeAgreement
import Mlxforge.Tokenizer.EncodeReturns

/-!
Decoding what the SentencePiece-style tokenizer encodes. A symbol of the vocabulary comes back with its markers turned
into spaces; a symbol outside it comes back byte by byte, markers included.
-/

namespace Mlxforge.SpmBpeTokenizer

/-! ### Characters -/

/-- U+2581 -/
def marker : Char := '\u2581'

theorem encode_marker : String.utf8EncodeChar marker = metaspace := by decide

theorem encode_space : String.utf8EncodeChar ' ' = [0x20] := by decide

def marked (c : Char) : Char := if c = ' ' then marker else c

def unmarked (c : Char) : Char := if c = marker then ' ' else c

theorem charLength_encodeChar (c : Char) (s : Bytes) : ∃ a rest, String.utf8EncodeChar c ++ s = a :: rest ∧
    charLength a (rest.length + 1) = (String.utf8EncodeChar c).length := by
  obtain ⟨a, eq, ha⟩ | ⟨a, b, eq, ha, _⟩ | ⟨a, b, d, eq, ha, _⟩ | ⟨a, b, d, e, eq, ha, _⟩ := Utf8.encodeChar_cases c
  all_goals
    rw [eq]
    refine ⟨a, _, rfl, ?_⟩
    simp [charLength, UInt8.le_iff_toNat_le]
    split_ifs <;> omega

theorem utf8Chars_encodeChar (c : Char) (s : Bytes) :
    utf8Chars (String.utf8EncodeChar c ++ s) = String.utf8EncodeChar c :: utf8Chars s := by
  obtain ⟨a, rest, eq, length⟩ := charLength_encodeChar c s
  rw [eq, utf8Chars, length, ← eq, List.take_left, List.drop_left]

/-- Well-formed text is split into its characters. -/
theorem utf8Chars_encode (cs : List Char) : utf8Chars (Utf8.encode cs) = cs.map String.utf8EncodeChar := by
  induction cs with
  | nil => rw [Utf8.encode_nil, utf8Chars, List.map_nil]
  | cons c cs ih => rw [Utf8.encode_cons, utf8Chars_encodeChar, ih, List.map_cons]

theorem encodeChar_inj {c d : Char} (same : String.utf8EncodeChar c = String.utf8EncodeChar d) : c = d := by
  have left := ByteArray.utf8DecodeChar?_utf8EncodeChar_append (b := .empty) (c := c)
  rw [same, ByteArray.utf8DecodeChar?_utf8EncodeChar_append] at left
  exact (Option.some.inj left).symm

theorem spaced_cons {b : UInt8} (other : b.toNat ≠ 0xE2) (s : Bytes) : spaced (b :: s) = b :: spaced s := by
  match s with
  | [] => rfl
  | [_] => rfl
  | c :: d :: tail =>
    rw [spaced, if_neg]
    intro same
    exact other (by rw [(List.cons.inj same).1]; rfl)

theorem spaced_encodeChar (c : Char) (s : Bytes) :
    spaced (String.utf8EncodeChar c ++ s) = String.utf8EncodeChar (unmarked c) ++ spaced s := by
  by_cases mark : c = marker
  · subst mark
    rw [unmarked, if_pos rfl, encode_marker, encode_space]
    rfl
  · rw [unmarked, if_neg mark]
    obtain ⟨a, eq, ha⟩ | ⟨a, b, eq, ha, hb⟩ | ⟨a, b, d, eq, ha, hb, hd⟩ | ⟨a, b, d, e, eq, ha, hb, hd, he⟩ :=
      Utf8.encodeChar_cases c
    · rw [eq, List.singleton_append, spaced_cons (by omega)]
      rfl
    · unfold Utf8.Tail at hb
      rw [eq, List.cons_append, List.singleton_append, spaced_cons (by omega), spaced_cons (by omega)]
      rfl
    · obtain ⟨hb, _⟩ := hb
      unfold Utf8.Tail at hb hd
      have other : [a, b, d] ≠ metaspace := by
        rw [← eq, ← encode_marker]
        exact fun same => mark (encodeChar_inj same)
      rw [eq, List.cons_append, List.cons_append, List.singleton_append, spaced, if_neg other, spaced_cons (by omega),
        spaced_cons (by omega)]
      rfl
    · obtain ⟨hb, _⟩ := hb
      unfold Utf8.Tail at hb hd he
      rw [eq, List.cons_append, List.cons_append, List.cons_append, List.singleton_append, spaced_cons (by omega),
        spaced_cons (by omega), spaced_cons (by omega), spaced_cons (by omega)]
      rfl

theorem spaced_encode (cs : List Char) : spaced (Utf8.encode cs) = Utf8.encode (cs.map unmarked) := by
  induction cs with
  | nil => rfl
  | cons c cs ih => rw [Utf8.encode_cons, spaced_encodeChar, ih, List.map_cons, Utf8.encode_cons]

theorem space_mem_encodeChar (c : Char) : 0x20 ∈ String.utf8EncodeChar c ↔ c = ' ' := by
  constructor
  · intro space
    obtain ⟨a, eq, ha⟩ | ⟨a, b, eq, ha, hb⟩ | ⟨a, b, d, eq, ha, hb, hd⟩ | ⟨a, b, d, e, eq, ha, hb, hd, he⟩ :=
      Utf8.encodeChar_cases c
    · rw [eq, List.mem_singleton] at space
      rw [← space, ← encode_space] at eq
      exact encodeChar_inj eq
    all_goals
      simp only [Utf8.Tail, Utf8.Second] at *
      simp [eq, ← UInt8.toNat_inj] at space
      omega
  · rintro rfl
    decide

theorem normalized_encodeChar (c : Char) : normalized (String.utf8EncodeChar c) = String.utf8EncodeChar (marked c) := by
  by_cases space : c = ' '
  · subst space
    rw [marked, if_pos rfl, encode_space, encode_marker]
    rfl
  · have same : ∀ b ∈ String.utf8EncodeChar c, (if b = 0x20 then metaspace else [b]) = [b] := by
      intro b member
      rw [if_neg]
      rintro rfl
      exact space ((space_mem_encodeChar c).mp member)
    rw [marked, if_neg space, normalized, List.flatMap_congr same, List.flatMap_singleton']

theorem normalized_encode (cs : List Char) : normalized (Utf8.encode cs) = Utf8.encode (cs.map marked) := by
  induction cs with
  | nil => rfl
  | cons c cs ih =>
    rw [Utf8.encode_cons, normalized, List.flatMap_append, ← normalized, ← normalized, normalized_encodeChar, ih,
      List.map_cons, Utf8.encode_cons]

/-! ### Symbols -/

variable {t : SpmBpeTokenizer}

/-- The product of a rule, neither of whose operands holds a space. -/
def Product (t : SpmBpeTokenizer) (tok : Bytes) : Prop :=
  ∃ a b, 0x20 ∉ a ∧ 0x20 ∉ b ∧ (t.pairRank a b).isSome ∧ tok = a ++ b

/-- Merging regroups characters; a group is a single character or a product. -/
theorem mergeRank_groups (rank : Nat) (groups : List (List Char)) (spaceless : Spaceless (groups.map Utf8.encode)) :
    ∃ merged : List (List Char), t.mergeRank rank (groups.map Utf8.encode) = merged.map Utf8.encode ∧
      merged.flatten = groups.flatten ∧ ∀ g ∈ merged, g ∈ groups ∨ t.Product (Utf8.encode g) := by
  generalize eq : groups.map Utf8.encode = symbols at spaceless
  fun_induction mergeRank t rank symbols generalizing groups with
  | case1 a b rest rule ih =>
    obtain ⟨g, behind, rfl, rfl, later⟩ := List.map_eq_cons_iff.mp eq
    obtain ⟨h, tail, rfl, rfl, rfl⟩ := List.map_eq_cons_iff.mp later
    obtain ⟨merged, eq, flatten, old⟩ := ih tail rfl fun s member => spaceless s (.tail _ (.tail _ member))
    refine ⟨(g ++ h) :: merged, by simp [eq], by simp [flatten], fun k member => ?_⟩
    rcases List.mem_cons.mp member with rfl | later
    · refine .inr ⟨_, _, spaceless _ (by simp), spaceless _ (by simp), ?_, Utf8.encode_append g h⟩
      rw [pairRank, rule]
      rfl
    · exact (old k later).imp_left fun member => .tail _ (.tail _ member)
  | case2 a b rest other ih =>
    obtain ⟨g, tail, rfl, rfl, later⟩ := List.map_eq_cons_iff.mp eq
    obtain ⟨merged, eq, flatten, old⟩ := ih tail later fun s member => spaceless s (.tail _ member)
    refine ⟨g :: merged, by simp [eq], by simp [flatten], fun k member => ?_⟩
    rcases List.mem_cons.mp member with rfl | later
    · exact .inl List.mem_cons_self
    · exact (old k later).imp_left fun member => .tail _ member
  | case3 symbols _ => exact ⟨groups, eq.symm, rfl, fun g member => .inl member⟩

theorem mergeLoop_groups (groups : List (List Char)) (spaceless : Spaceless (groups.map Utf8.encode)) :
    ∃ merged : List (List Char), t.mergeLoop (groups.map Utf8.encode) = merged.map Utf8.encode ∧
      merged.flatten = groups.flatten ∧ ∀ g ∈ merged, g ∈ groups ∨ t.Product (Utf8.encode g) := by
  generalize eq : groups.map Utf8.encode = symbols at spaceless
  fun_induction mergeLoop t symbols generalizing groups with
  | case1 symbols none => exact ⟨groups, eq.symm, rfl, fun g member => .inl member⟩
  | case2 symbols rank found ih =>
    subst eq
    obtain ⟨merged, eq, flatten, old⟩ := mergeRank_groups (t := t) rank groups spaceless
    have clean : Spaceless (t.mergeRank rank (groups.map Utf8.encode)) := by
      rw [mergeRank_eq]
      exact spaceless.mergeEach rank
    obtain ⟨last, eq', flatten', old'⟩ := ih merged eq.symm clean
    refine ⟨last, eq', flatten'.trans flatten, fun g member => ?_⟩
    obtain before | product := old' g member
    · exact old g before
    · exact .inr product

/-- What `encode_plain` looks up. -/
def symbols (t : SpmBpeTokenizer) (segment : Bytes) : List Bytes := t.mergeLoop (utf8Chars (normalized segment))

/-- The symbols of a text without the marker, as characters. -/
theorem symbols_groups (t : SpmBpeTokenizer) (cs : List Char) : ∃ groups : List (List Char),
    t.symbols (Utf8.encode cs) = groups.map Utf8.encode ∧ groups.flatten = cs.map marked ∧
      ∀ g ∈ groups, (∃ c, g = [c]) ∨ t.Product (Utf8.encode g) := by
  have single : utf8Chars (normalized (Utf8.encode cs)) = ((cs.map marked).map fun c => [c]).map Utf8.encode := by
    rw [normalized_encode, utf8Chars_encode, List.map_map (f := fun c => [c])]
    exact List.map_congr_left fun c _ => (List.append_nil (String.utf8EncodeChar c)).symm
  have spaceless := spaceless_utf8Chars (Utf8.encode cs)
  rw [single] at spaceless
  obtain ⟨groups, eq, flatten, old⟩ := mergeLoop_groups (t := t) ((cs.map marked).map fun c => [c]) spaceless
  refine ⟨groups, by rw [symbols, single, eq], ?_, fun g member => ?_⟩
  · rw [flatten, ← List.flatMap_def, List.flatMap_singleton']
  · refine (old g member).imp_left fun one => ?_
    obtain ⟨c, _, rfl⟩ := List.mem_map.mp one
    exact ⟨c, rfl⟩

/-! ### Ids -/

/-- A vocabulary entry, an added token or a byte token. -/
def Lists (t : SpmBpeTokenizer) (tok : Bytes) (id : Int) : Prop :=
  t.tokenToId.lookup tok = some id ∨ (tok, id) ∈ t.specialTokens ∨ ∃ b, 0 ≤ t.byteFallback b ∧ tok = byteTokenName b ∧ id = t.byteFallback b

/-- No two tokens share an id. -/
def DistinctIds (t : SpmBpeTokenizer) : Prop := ∀ tok tok' id, t.Lists tok id → t.Lists tok' id → tok = tok'

/-- The content of a special token. -/
def Special (t : SpmBpeTokenizer) (tok : Bytes) : Prop := ∃ id ∈ t.specialIds, (tok, id) ∈ t.specialTokens

/-- Ids lead back to their tokens and bytes, and only ids of added tokens are skipped. -/
structure Consistent (t : SpmBpeTokenizer) : Prop where
  token : ∀ {tok id}, t.tokenToId.lookup tok = some id → 0 ≤ id ∧ t.idToToken[id.toNat]? = some tok
  special : ∀ {id}, id ∈ t.specialIds → ∃ lit, (lit, id) ∈ t.specialTokens
  byte : ∀ {id b}, t.byteTokenValue.lookup id = some b → 0 ≤ t.byteFallback b ∧ t.byteFallback b = id
  value : ∀ b, 0 ≤ t.byteFallback b →
    (t.byteFallback b).toNat < t.idToToken.length ∧ (t.byteTokenValue.lookup (t.byteFallback b)).isSome

def hexValue (d : UInt8) : Nat := (Bytes.ofAscii "0123456789ABCDEF").idxOf d

theorem byteTokenName_value : ∀ n < 256, hexValue ((byteTokenName (UInt8.ofNat n)).getD 3 0) * 16 +
    hexValue ((byteTokenName (UInt8.ofNat n)).getD 4 0) = n := by
  decide +kernel

theorem byteTokenName_inj {b c : UInt8} (same : byteTokenName b = byteTokenName c) : b = c := by
  have left := byteTokenName_value b.toNat b.toNat_lt
  have right := byteTokenName_value c.toNat c.toNat_lt
  rw [UInt8.ofNat_toNat] at left right
  rw [same, right] at left
  exact UInt8.toNat_inj.mp left.symm

section
variable {vocab : List (Bytes × Int)} {keys : List Bytes} {unk : Option Bytes} {added : List AddedToken}

theorem vocabIds_lookup {tok : Bytes} {id : Int} (found : (vocab.foldl emplace ∅).lookup tok = some id) :
    id ∈ vocab.map (·.2) := by
  rw [lookup_emplaces, AList.lookup_empty, Option.none_or] at found
  exact List.mem_map.mpr ⟨_, mem_of_lookup found, rfl⟩

theorem byteFallback_eq {b : UInt8} (known : 0 ≤ (assemble vocab keys unk added).byteFallback b) :
    (vocab.foldl emplace ∅).lookup (byteTokenName b) = some ((assemble vocab keys unk added).byteFallback b) := by
  simp only [assemble] at known ⊢
  cases found : (vocab.foldl emplace ∅).lookup (byteTokenName b) with
  | none =>
    rw [found] at known
    cases known
  | some id => rfl

theorem mem_byteTokenValue {id : Int} {b : UInt8} : (id, b) ∈ (assemble vocab keys unk added).byteTokenValue ↔
    (vocab.foldl emplace ∅).lookup (byteTokenName b) = some id := by
  simp only [assemble, List.mem_reverse, List.mem_filterMap, List.mem_range, Option.map_eq_some_iff]
  constructor
  · rintro ⟨n, _, _, found, same⟩
    obtain ⟨rfl, rfl⟩ := Prod.mk.inj same
    exact found
  · intro found
    exact ⟨b.toNat, b.toNat_lt, id, by rw [UInt8.ofNat_toNat, found], by rw [UInt8.ofNat_toNat]⟩

theorem assemble_consistent (natural : ∀ id ∈ vocab.map (·.2) ++ added.map (·.id), 0 ≤ id)
    (distinct : (assemble vocab keys unk added).DistinctIds) : (assemble vocab keys unk added).Consistent := by
  -- the tables for lookups are filled as those of the byte-level tokenizer
  have shared : (BpeTokenizer.assemble 1 (by decide) vocab keys added).Consistent :=
    BpeTokenizer.assemble_consistent natural fun tok tok' id listed listed' =>
      distinct tok tok' id (listed.imp_right .inl) (listed'.imp_right .inl)
  constructor
  · exact shared.token
  · exact shared.special
  · intro id b found
    have named := mem_byteTokenValue.mp (mem_of_lookup found)
    have nonneg := natural id (List.mem_append_left _ (vocabIds_lookup named))
    have same : (assemble vocab keys unk added).byteFallback b = id := by
      simp only [assemble]
      rw [named, Option.getD_some]
    exact ⟨same ▸ nonneg, same⟩
  · intro b known
    have named := byteFallback_eq known
    have below := BpeTokenizer.le_foldl_max (vocab.map (·.2) ++ added.map (·.id)) (-1)
      (.inl (List.mem_append_left _ (vocabIds_lookup named)))
    constructor
    · have size : (assemble vocab keys unk added).idToToken.length =
          ((vocab.map (·.2) ++ added.map (·.id)).foldl max (-1) + 1).toNat := BpeTokenizer.tokenTable_length _ _
      omega
    · rw [List.lookup_isSome_iff]
      exact ⟨_, mem_byteTokenValue.mpr named, by simp⟩

end

/-! ### One symbol -/

section
variable (consistent : t.Consistent) (distinct : t.DistinctIds)

include consistent distinct

/-- A token that is neither skipped nor a byte token is read back with spaces for markers. -/
theorem decodeId_token {tok : Bytes} {id : Int} (found : t.tokenToId.lookup tok = some id) (ordinary : ¬t.Special tok)
    (notByte : ∀ b, tok ≠ byteTokenName b) : t.decodeId id = spaced tok := by
  obtain ⟨nonneg, token⟩ := consistent.token found
  have inside := (List.getElem?_eq_some_iff.mp token).1
  have unskipped : id ∉ t.specialIds := by
    intro special
    obtain ⟨lit, member⟩ := consistent.special special
    obtain rfl : lit = tok := distinct _ _ id (.inr (.inl member)) (.inl found)
    exact ordinary ⟨id, special, member⟩
  have text : t.byteTokenValue.lookup id = none := by
    cases value : t.byteTokenValue.lookup id with
    | none => rfl
    | some b =>
      obtain ⟨known, same⟩ := consistent.byte value
      exact absurd (distinct _ _ id (.inl found) (.inr (.inr ⟨b, known, rfl, same.symm⟩))) (notByte b)
  unfold decodeId
  rw [if_neg (by omega), if_neg (by simpa using unskipped), text, List.getD_eq_getElem?_getD, token, Option.getD_some]

theorem decodeId_byte {b : UInt8} (known : 0 ≤ t.byteFallback b) :
    t.decodeId (t.byteFallback b) = if t.byteFallback b ∈ t.specialIds then [] else [b] := by
  obtain ⟨inside, some_value⟩ := consistent.value b known
  obtain ⟨c, value⟩ := Option.isSome_iff_exists.mp some_value
  obtain ⟨known', same⟩ := consistent.byte value
  obtain rfl : c = b := byteTokenName_inj
    (distinct _ _ _ (.inr (.inr ⟨c, known', rfl, same.symm⟩)) (.inr (.inr ⟨b, known, rfl, rfl⟩)))
  unfold decodeId
  rw [if_neg (by omega), value]
  simp

/-- The bytes of a symbol whose tokens are not skipped. -/
def unskipped (t : SpmBpeTokenizer) (sym : Bytes) : Bytes := sym.filter fun b => t.byteFallback b ∉ t.specialIds

theorem decode_emitSymbol (bytes : ∀ b, 0 ≤ t.byteFallback b) {sym : Bytes} (ordinary : ¬t.Special sym)
    (notByte : ∀ b, sym ≠ byteTokenName b) :
    t.decode (t.emitSymbol sym) = if (t.tokenToId.lookup sym).isSome then spaced sym else t.unskipped sym := by
  rw [decode_eq, emitSymbol]
  cases found : t.tokenToId.lookup sym with
  | some id =>
    show [id].flatMap t.decodeId = spaced sym
    rw [List.flatMap_singleton, decodeId_token consistent distinct found ordinary notByte]
  | none =>
    show (sym.filterMap _).flatMap t.decodeId = t.unskipped sym
    clear found ordinary notByte
    induction sym with
    | nil => rfl
    | cons b sym ih =>
      rw [List.filterMap_cons, if_pos (bytes b), List.flatMap_cons, ih, decodeId_byte consistent distinct (bytes b), unskipped,
        unskipped, List.filter_cons]
      split <;> rename_i special <;> simp [special]

end

/-! ### The round trip -/

theorem encode_flatten (groups : List (List Char)) : Utf8.encode groups.flatten = groups.flatMap Utf8.encode := by
  rw [Utf8.encode, List.flatten_eq_flatMap, List.flatMap_assoc]
  rfl

theorem space_mem_encode (cs : List Char) : 0x20 ∈ Utf8.encode cs ↔ ' ' ∈ cs := by
  rw [Utf8.encode, List.mem_flatMap]
  constructor
  · rintro ⟨c, member, space⟩
    rwa [(space_mem_encodeChar c).mp space] at member
  · exact fun member => ⟨' ', member, by decide⟩

theorem marker_not_mem {cs : List Char} (clean : ¬metaspace <:+: Utf8.encode cs) : marker ∉ cs := by
  intro member
  obtain ⟨l, r, rfl⟩ := List.append_of_mem member
  rw [Utf8.encode_append, Utf8.encode_cons, encode_marker] at clean
  exact clean ⟨Utf8.encode l, Utf8.encode r, by rw [List.append_assoc]⟩

theorem unmarked_marked {cs : List Char} (clean : marker ∉ cs) : (cs.map marked).map unmarked = cs := by
  have back : ∀ c ∈ cs, unmarked (marked c) = c := by
    intro c member
    have other : c ≠ marker := by
      rintro rfl
      exact clean member
    unfold marked
    split
    · rename_i space
      rw [space]
      decide
    · rw [unmarked, if_neg other]
  rw [List.map_map]
  conv_rhs => rw [← List.map_id cs]
  exact List.map_congr_left back

theorem space_mem_spaced {g : List Char} (member : marker ∈ g) : 0x20 ∈ spaced (Utf8.encode g) := by
  rw [spaced_encode, space_mem_encode]
  exact List.mem_map.mpr ⟨marker, member, by decide⟩

/-- Reading markers as spaces changes a group exactly when it holds a marker. -/
theorem spaced_eq_self {g : List Char} (spaceless : ' ' ∉ g) : spaced (Utf8.encode g) = Utf8.encode g ↔ marker ∉ g := by
  constructor
  · intro same member
    have space := space_mem_spaced member
    rw [same, space_mem_encode] at space
    exact spaceless space
  · intro clean
    rw [spaced_encode]
    have same : g.map unmarked = g := by
      conv_rhs => rw [← List.map_id g]
      refine List.map_congr_left fun c member => ?_
      rw [unmarked, if_neg, id_eq]
      rintro rfl
      exact clean member
    rw [same]

theorem unskipped_length_le (sym : Bytes) : (t.unskipped sym).length ≤ sym.length := List.length_filter_le _ _

/-- No merge product and no single character is a byte token's name or a special token's content. -/
structure OrdinarySymbols (t : SpmBpeTokenizer) : Prop where
  product : ∀ tok, t.Product tok → ¬t.Special tok ∧ ∀ b, tok ≠ byteTokenName b
  char : ∀ c : Char, ¬t.Special (String.utf8EncodeChar c)

theorem OrdinarySymbols.group (ordinary : t.OrdinarySymbols) {g : List Char}
    (shape : (∃ c, g = [c]) ∨ t.Product (Utf8.encode g)) :
    ¬t.Special (Utf8.encode g) ∧ ∀ b, Utf8.encode g ≠ byteTokenName b := by
  obtain ⟨c, rfl⟩ | product := shape
  · rw [Utf8.encode_cons, Utf8.encode_nil, List.append_nil]
    refine ⟨ordinary.char c, fun b same => ?_⟩
    have length := congrArg List.length same
    rw [String.length_utf8EncodeChar] at length
    have short := c.utf8Size_le_four
    have long : (byteTokenName b).length = 6 := rfl
    omega
  · exact ordinary.product _ product

/-- A symbol outside the vocabulary holds no marker, and its byte tokens are not skipped. -/
def FallsBack (t : SpmBpeTokenizer) (sym : Bytes) : Prop :=
  t.tokenToId.lookup sym = none → spaced sym = sym ∧ ∀ b ∈ sym, t.byteFallback b ∉ t.specialIds

theorem decode_encodePlain_iff (consistent : t.Consistent) (distinct : t.DistinctIds) (bytes : ∀ b, 0 ≤ t.byteFallback b)
    (ordinary : t.OrdinarySymbols) {text : Bytes} (valid : Utf8.Valid text) (unmarked_text : ¬metaspace <:+: text) :
    t.decode (t.encodePlain text) = text ↔ ∀ sym ∈ t.symbols text, t.FallsBack sym := by
  obtain ⟨cs, rfl⟩ := valid
  obtain ⟨groups, eq, flatten, shape⟩ := t.symbols_groups cs
  let back (g : List Char) : Bytes :=
    if (t.tokenToId.lookup (Utf8.encode g)).isSome then spaced (Utf8.encode g) else t.unskipped (Utf8.encode g)
  have whole : Utf8.encode cs = groups.flatMap fun g => spaced (Utf8.encode g) := by
    conv_lhs => rw [← unmarked_marked (marker_not_mem unmarked_text), ← flatten, List.map_flatten, encode_flatten,
      List.flatMap_map]
    exact List.flatMap_congr fun g _ => (spaced_encode g).symm
  have decoded : t.decode (t.encodePlain (Utf8.encode cs)) = groups.flatMap back := by
    show t.decode ((t.symbols (Utf8.encode cs)).flatMap t.emitSymbol) = _
    rw [eq, decode_eq, List.flatMap_map, List.flatMap_assoc]
    refine List.flatMap_congr fun g member => ?_
    obtain ⟨plain, notByte⟩ := ordinary.group (shape g member)
    rw [← decode_eq, decode_emitSymbol consistent distinct bytes plain notByte]
  have spaceless : ∀ g ∈ groups, ' ' ∉ g := by
    intro g member space
    have inside : ' ' ∈ cs.map marked := flatten ▸ List.mem_flatten_of_mem member space
    obtain ⟨c, _, same⟩ := List.mem_map.mp inside
    unfold marked at same
    split at same
    · cases same
    · rename_i other
      exact other same
  rw [decoded]
  conv_lhs => rhs; rw [whole]
  rw [eq, List.forall_mem_map]
  have known : ∀ g, (t.tokenToId.lookup (Utf8.encode g)).isSome → back g = spaced (Utf8.encode g) := fun g found => if_pos found
  have fallback : ∀ g, t.tokenToId.lookup (Utf8.encode g) = none → back g = t.unskipped (Utf8.encode g) :=
    fun g absent => if_neg (by simp [absent])
  have no_space : ∀ g ∈ groups, 0x20 ∉ t.unskipped (Utf8.encode g) := by
    intro g member space
    exact spaceless g member ((space_mem_encode g).mp (List.mem_filter.mp space).1)
  constructor
  · intro same
    -- a marker that is not read as a space leaves the text short of one
    have spaces := congrArg (List.filter (· == 0x20)) same
    rw [List.filter_flatMap, List.filter_flatMap, flatMap_eq_flatMap_iff] at spaces
    · have unmarked_groups : ∀ g ∈ groups, t.tokenToId.lookup (Utf8.encode g) = none → marker ∉ g := by
        intro g member absent mark
        have kept : 0x20 ∈ (back g).filter (· == 0x20) := by
          rw [spaces g member]
          exact List.mem_filter.mpr ⟨space_mem_spaced mark, rfl⟩
        rw [fallback g absent] at kept
        exact no_space g member (List.mem_filter.mp kept).1
      rw [flatMap_eq_flatMap_iff] at same
      · intro g member absent
        have plain := (spaced_eq_self (spaceless g member)).mpr (unmarked_groups g member absent)
        have all := same g member
        rw [fallback g absent, plain, unskipped, List.filter_eq_self] at all
        exact ⟨plain, fun b inside => by simpa using all b inside⟩
      · intro g member
        cases found : t.tokenToId.lookup (Utf8.encode g) with
        | some id => rw [known g (by rw [found]; rfl)]
        | none =>
          rw [fallback g found, (spaced_eq_self (spaceless g member)).mpr (unmarked_groups g member found)]
          exact unskipped_length_le _
    · intro g member
      cases found : t.tokenToId.lookup (Utf8.encode g) with
      | some id => rw [known g (by rw [found]; rfl)]
      | none =>
        have none_left : (t.unskipped (Utf8.encode g)).filter (· == 0x20) = [] := by
          rw [List.filter_eq_nil_iff]
          intro b inside space
          exact no_space g member (beq_iff_eq.mp space ▸ inside)
        rw [fallback g found, none_left]
        exact Nat.zero_le _
  · intro falls
    refine List.flatMap_congr fun g member => ?_
    cases found : t.tokenToId.lookup (Utf8.encode g) with
    | some id => exact known g (by rw [found]; rfl)
    | none =>
      obtain ⟨plain, kept⟩ := falls g member found
      rw [fallback g found, plain, unskipped, List.filter_eq_self.mpr]
      intro b inside
      simpa using kept b inside

@[irreducible] def byteVocab : List (Bytes × Int) := (List.range 256).map fun n => (byteTokenName (UInt8.ofNat n), (n : Int))

theorem mem_byteVocab {p : Bytes × Int} : p ∈ byteVocab ↔ ∃ n < 256, (byteTokenName (UInt8.ofNat n), (n : Int)) = p := by
  simp only [byteVocab, List.mem_map, List.mem_range]

def byteOnlyJson : Json :=
  .obj [(.ofAscii "model", .obj [
    (.ofAscii "merges", .arr []),
    (.ofAscii "type", .str (.ofAscii "BPE")),
    (.ofAscii "vocab", .obj (byteVocab.map fun p => (p.1, .int p.2)))])]

def byteOnly : SpmBpeTokenizer := assemble byteVocab [] none []

theorem byteVocab_natural : ∀ id ∈ byteVocab.map (·.2) ++ ([] : List AddedToken).map (·.id), 0 ≤ id := by
  intro id member
  rw [List.map_nil, List.append_nil] at member
  obtain ⟨p, listed, rfl⟩ := List.mem_map.mp member
  obtain ⟨n, _, rfl⟩ := mem_byteVocab.mp listed
  exact Int.natCast_nonneg n

theorem byteOnly_built : fromBlob (fun _ => some byteOnlyJson) [] = .ok byteOnly := by
  have vocab : (byteVocab.map fun p : Bytes × Int => (p.1, Json.int p.2)).mapM BpeTokenizer.vocabEntry = .ok byteVocab := by
    rw [List.mapM_map]
    conv_rhs => rw [← List.map_id byteVocab]
    exact mapM_ok fun p _ => rfl
  have natural : (byteVocab.map (·.2) ++ ([] : List AddedToken).map (·.id)).any (· < 0) = false := by
    rw [List.any_eq_false]
    intro id member
    simpa using byteVocab_natural id member
  have entries : vocabEntries (.obj [
      (.ofAscii "merges", .arr []),
      (.ofAscii "type", .str (.ofAscii "BPE")),
      (.ofAscii "vocab", .obj (byteVocab.map fun p => (p.1, .int p.2)))]) = .ok byteVocab := vocab
  show (vocabEntries _ >>= fun vocab => _) = _
  rw [entries, ok_bind]
  show (if _ then _ else _) = _
  rw [natural]
  rfl

/-- The table of a vocabulary without added tokens. -/
theorem assemble_vocab_lookup (vocab : List (Bytes × Int)) (tok : Bytes) :
    (assemble vocab [] none []).tokenToId.lookup tok = vocab.lookup tok := by
  show (vocab.foldl emplace ∅).lookup tok = _
  rw [lookup_emplaces, AList.lookup_empty, Option.none_or]

theorem assemble_vocab_byteFallback (vocab : List (Bytes × Int)) (b : UInt8) :
    (assemble vocab [] none []).byteFallback b = (vocab.lookup (byteTokenName b)).getD (-1) := by
  show ((vocab.foldl emplace ∅).lookup (byteTokenName b)).getD (-1) = _
  rw [lookup_emplaces, AList.lookup_empty, Option.none_or]

theorem byteVocab_lookup {tok : Bytes} {id : Int} (found : byteVocab.lookup tok = some id) :
    0 ≤ id ∧ tok = byteTokenName (UInt8.ofNat id.toNat) := by
  obtain ⟨n, _, same⟩ := mem_byteVocab.mp (mem_of_lookup found)
  obtain ⟨rfl, rfl⟩ := Prod.mk.inj same
  exact ⟨Int.natCast_nonneg n, rfl⟩

theorem byteOnly_lookup {tok : Bytes} {id : Int} (found : byteOnly.tokenToId.lookup tok = some id) :
    0 ≤ id ∧ tok = byteTokenName (UInt8.ofNat id.toNat) := by
  rw [byteOnly, assemble_vocab_lookup] at found
  exact byteVocab_lookup found

theorem byteOnly_byteFallback (b : UInt8) : byteVocab.lookup (byteTokenName b) = some (byteOnly.byteFallback b) := by
  have known : (byteVocab.lookup (byteTokenName b)).isSome := by
    rw [List.lookup_isSome_iff]
    refine ⟨(byteTokenName b, (b.toNat : Int)), mem_byteVocab.mpr ⟨b.toNat, b.toNat_lt, ?_⟩, by simp⟩
    rw [UInt8.ofNat_toNat]
  obtain ⟨id, found⟩ := Option.isSome_iff_exists.mp known
  rw [byteOnly, assemble_vocab_byteFallback, found, Option.getD_some]

theorem byteOnly_bytes (b : UInt8) : 0 ≤ byteOnly.byteFallback b := (byteVocab_lookup (byteOnly_byteFallback b)).1

theorem byteOnly_specialTokens (p : Bytes × Int) : p ∉ byteOnly.specialTokens := by
  intro member
  have none_added : p ∈ ([] : List (Bytes × Int)) := BpeTokenizer.mem_longestFirst.mp member
  cases none_added

theorem byteOnly_distinct : byteOnly.DistinctIds := by
  have named : ∀ {tok id}, byteOnly.Lists tok id → tok = byteTokenName (UInt8.ofNat id.toNat) := by
    intro tok id listed
    obtain found | member | ⟨b, known, rfl, rfl⟩ := listed
    · exact (byteOnly_lookup found).2
    · exact absurd member (byteOnly_specialTokens _)
    · exact (byteVocab_lookup (byteOnly_byteFallback b)).2
  intro tok tok' id listed listed'
  rw [named listed, named listed']

theorem byteOnly_ordinary : byteOnly.OrdinarySymbols := by
  constructor
  · rintro tok ⟨a, b, _, _, rule, _⟩
    cases rule
  · rintro c ⟨id, _, member⟩
    exact byteOnly_specialTokens _ member

end Mlxforge.SpmBpeTokenizer
