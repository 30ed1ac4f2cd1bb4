import Mlxforge.Tokenizer.BpeLoaders

/-!
Decoding an encoded text gives the text back, byte for byte: decoding into codepoints, cutting into pieces and merging
only ever regroup the bytes, and the alphabet maps bytes one to one.
-/

namespace Mlxforge

/-! ### The byte alphabet -/

/-- The codepoint of a byte, without the count. -/
def codepointOf (b : Nat) : Nat :=
  if printable b then b else if b ≤ 0x20 then 256 + b else if b ≤ 0xA0 then 162 + b else 0x143

theorem byteCodepoints_eq : byteCodepoints = (List.range 256).map codepointOf := by decide +kernel

theorem byteCodepoints_getD {n : Nat} (byte : n < 256) : byteCodepoints.getD n 0 = codepointOf n := by
  simp [byteCodepoints_eq, List.getElem?_range byte]

theorem byteCodepoints_nodup : byteCodepoints.Nodup := by
  rw [byteCodepoints_eq]
  refine List.Nodup.map_on ?_ List.nodup_range
  intro a ha b hb same
  rw [List.mem_range] at ha hb
  simp only [codepointOf, printable, Bool.or_eq_true, Bool.and_eq_true, decide_eq_true_eq] at same
  split_ifs at same <;> omega

theorem fromUni_codepointOf (b : UInt8) : fromUni (codepointOf b.toNat) = some b := by
  have inside : b.toNat < byteCodepoints.length := by
    rw [byteCodepoints_eq, List.length_map, List.length_range]
    exact b.toNat_lt
  have here : byteCodepoints[b.toNat] = codepointOf b.toNat := by
    simp [byteCodepoints_eq]
  have found : byteCodepoints.idxOf? (codepointOf b.toNat) = some b.toNat := by
    rw [List.idxOf?_eq_some_iff]
    refine ⟨inside, here, fun j before same => ?_⟩
    have := byteCodepoints_nodup.getElem_inj_iff.mp (same.trans here.symm)
    omega
  rw [fromUni, found]
  simp

/-- An alphabet symbol has one or two bytes, none of them a space, and decodes to its codepoint. -/
def alphabetSymbol (cp : Nat) : Bool :=
  match appendUtf8 cp with
  | [c] => c.toNat < 0x80 && c.toNat == cp && leadLength c == 1 && c != 0x20
  | [c, d] => c.toNat >>> 5 == 0x6 && (bits c 0x1F 6 ||| bits d 0x3F 0) == cp && leadLength c == 2 &&
      !c.toNat < 0x80 && c != 0x20 && d != 0x20
  | _ => false

theorem alphabetSymbol_all : ∀ b < 256, alphabetSymbol (codepointOf b) = true := by decide +kernel

theorem toUni_cases (b : UInt8) :
    (∃ c, toUni b = [c] ∧ c.toNat < 0x80 ∧ fromUni c.toNat = some b ∧ leadLength c = 1 ∧ c ≠ 0x20) ∨
    (∃ c d, toUni b = [c, d] ∧ ¬c.toNat < 0x80 ∧ c.toNat >>> 5 = 0x6 ∧
      fromUni (bits c 0x1F 6 ||| bits d 0x3F 0) = some b ∧ leadLength c = 2 ∧ c ≠ 0x20 ∧ d ≠ 0x20) := by
  have ok := alphabetSymbol_all b.toNat b.toNat_lt
  have back := fromUni_codepointOf b
  rw [toUni, byteCodepoints_getD b.toNat_lt]
  unfold alphabetSymbol at ok
  split at ok
  · rename_i c eq
    simp only [Bool.and_eq_true, decide_eq_true_eq, beq_iff_eq, bne_iff_ne] at ok
    exact .inl ⟨c, eq, ok.1.1.1, ok.1.1.2 ▸ back, ok.1.2, ok.2⟩
  · rename_i c d eq
    simp only [Bool.and_eq_true, Bool.not_eq_true', decide_eq_false_iff_not, beq_iff_eq, bne_iff_ne] at ok
    exact .inr ⟨c, d, eq, ok.1.1.2, ok.1.1.1.1.1, ok.1.1.1.1.2 ▸ back, ok.1.1.1.2, ok.1.2, ok.2⟩
  · cases ok

/-- The byte-alphabet image of a byte string. -/
def image (bs : Bytes) : Bytes := bs.flatMap toUni

@[simp] theorem image_nil : image [] = [] := rfl

@[simp] theorem image_append (bs cs : Bytes) : image (bs ++ cs) = image bs ++ image cs := List.flatMap_append

theorem image_cons (b : UInt8) (bs : Bytes) : image (b :: bs) = toUni b ++ image bs := rfl

theorem image_singleton (b : UInt8) : image [b] = toUni b := by simp [image]

theorem space_not_mem_image (bs : Bytes) : 0x20 ∉ image bs := by
  intro space
  obtain ⟨b, _, space⟩ := List.mem_flatMap.mp space
  obtain ⟨c, eq, _, _, _, hc⟩ | ⟨c, d, eq, _, _, _, _, hc, hd⟩ := toUni_cases b
  · rw [eq] at space
    exact hc (List.mem_singleton.mp space).symm
  · rw [eq, List.mem_cons, List.mem_singleton] at space
    rcases space with h | h
    · exact hc h.symm
    · exact hd h.symm

theorem tokenBytes_cons (b : UInt8) (s : Bytes) :
    BpeTokenizer.tokenBytes (toUni b ++ s) = b :: BpeTokenizer.tokenBytes s := by
  unfold BpeTokenizer.tokenBytes
  obtain ⟨c, eq, ascii, back, _, _⟩ | ⟨c, d, eq, high, lead, back, _, _, _⟩ := toUni_cases b
  · rw [eq, List.singleton_append]
    conv_lhs => unfold decodeUtf8
    rw [if_pos ascii, List.filterMap_cons, back]
  · rw [eq, List.cons_append, List.singleton_append]
    conv_lhs => unfold decodeUtf8
    simp only
    rw [if_neg high, if_pos lead, List.filterMap_cons, back]

/-- The image is read back. -/
@[simp] theorem tokenBytes_image (bs : Bytes) : BpeTokenizer.tokenBytes (image bs) = bs := by
  induction bs with
  | nil => rfl
  | cons b bs ih => rw [image_cons, tokenBytes_cons, ih]

theorem image_injective : Function.Injective image :=
  Function.LeftInverse.injective tokenBytes_image

theorem splitSymbols_cons (b : UInt8) (s : Bytes) : splitSymbols (toUni b ++ s) = toUni b :: splitSymbols s := by
  obtain ⟨c, eq, _, _, length, _⟩ | ⟨c, d, eq, _, _, _, length, _, _⟩ := toUni_cases b
  · rw [eq, List.singleton_append, splitSymbols, length]
    rfl
  · rw [eq, List.cons_append, List.singleton_append, splitSymbols, length]
    rfl

theorem splitSymbols_image (bs : Bytes) : splitSymbols (image bs) = bs.map toUni := by
  induction bs with
  | nil => rw [image_nil, splitSymbols, List.map_nil]
  | cons b bs ih => rw [image_cons, splitSymbols_cons, ih, List.map_cons]

/-! ### Regrouping -/

theorem decodeUtf8_bytes (s : Bytes) : (decodeUtf8 s).flatMap (·.bytes) = s := by
  fun_induction decodeUtf8 s <;> simp +zetaDelta [*]

namespace BpeTokenizer

variable {t : BpeTokenizer} {u : UnicodeTables}

theorem pieces_flatten (cp : List Codepoint) : (t.pieces u cp).flatten = cp.flatMap (·.bytes) := by
  fun_induction pieces t u cp with
  | case1 => rfl
  | case2 c rest ih => rw [List.flatten_cons, ih, ← List.flatMap_append, List.take_append_drop]

theorem mergePair_flatten (a b : Bytes) (symbols : List Bytes) : (mergePair a b symbols).flatten = symbols.flatten := by
  fun_induction mergePair a b symbols <;> simp_all

theorem mem_mergePair {a b s : Bytes} {symbols : List Bytes} (member : s ∈ mergePair a b symbols) :
    s ∈ symbols ∨ s = a ++ b := by
  fun_induction mergePair a b symbols with
  | case1 x y rest same ih =>
    rcases List.mem_cons.mp member with rfl | member
    · exact .inr rfl
    · exact (ih member).imp_left fun old => .tail _ (.tail _ old)
  | case2 x y rest _ ih =>
    rcases List.mem_cons.mp member with rfl | member
    · exact .inl List.mem_cons_self
    · exact (ih member).imp_left fun old => .tail _ old
  | case3 => exact .inl member

theorem mergePair_image (x y : Bytes) (parts : List Bytes) :
    mergePair (image x) (image y) (parts.map image) = (mergePair x y parts).map image := by
  fun_induction mergePair x y parts with
  | case1 a b rest same ih =>
    obtain ⟨rfl, rfl⟩ := same
    rw [List.map_cons, List.map_cons, mergePair, if_pos ⟨rfl, rfl⟩, ih, List.map_cons, image_append]
  | case2 a b rest differs ih =>
    rw [List.map_cons, List.map_cons, mergePair, if_neg, List.map_cons, ← ih, List.map_cons]
    exact fun same => differs ⟨image_injective same.1, image_injective same.2⟩
  | case3 parts short =>
    match parts with
    | [] => rfl
    | [_] => rfl
    | a :: b :: rest => exact absurd rfl (short a b rest)

/-- Every product of a merge rule is in the vocabulary. A rule is listed as two space-free strings around a space. -/
def HasProducts (t : BpeTokenizer) : Prop :=
  ∀ a b, 0x20 ∉ a → 0x20 ∉ b → (t.mergeRanks.lookup (mergeKey a b)).isSome → (t.tokenToId.lookup (a ++ b)).isSome

def HasAlphabet (t : BpeTokenizer) : Prop := ∀ b, (t.tokenToId.lookup (toUni b)).isSome

/-- Merging regroups images of byte strings that are in the vocabulary into such images. -/
theorem mergeLoop_spec (products : t.HasProducts) (parts : List Bytes)
    (known : ∀ bs ∈ parts, (t.tokenToId.lookup (image bs)).isSome) :
    ∃ merged : List Bytes, t.mergeLoop (parts.map image) = merged.map image ∧ merged.flatten = parts.flatten ∧
      ∀ bs ∈ merged, (t.tokenToId.lookup (image bs)).isSome := by
  generalize eq : parts.map image = symbols
  fun_induction mergeLoop t symbols generalizing parts with
  | case1 symbols none => exact ⟨parts, eq.symm, rfl, known⟩
  | case2 symbols rank a b found ih =>
    subst eq
    obtain none_some | ⟨adjacent, rule⟩ := bestPair_spec found
    · cases none_some
    obtain ⟨x, hx, rfl⟩ : ∃ x ∈ parts, image x = a := List.mem_map.mp (adjacent.subset (by simp))
    obtain ⟨y, hy, rfl⟩ : ∃ y ∈ parts, image y = b := List.mem_map.mp (adjacent.subset (by simp))
    have product : (t.tokenToId.lookup (image (x ++ y))).isSome := by
      rw [image_append]
      exact products _ _ (space_not_mem_image x) (space_not_mem_image y) (by rw [rule]; rfl)
    rw [← mergePair_flatten x y parts]
    refine ih (mergePair x y parts) (fun bs member => ?_) (mergePair_image x y parts).symm
    rcases mem_mergePair member with old | rfl
    · exact known bs old
    · exact product

/-- Reading ids of images back gives the byte strings. -/
theorem decode_known (parts : List Bytes) (known : ∀ bs ∈ parts, (t.tokenToId.lookup (image bs)).isSome)
    (readsBack : ∀ bs ∈ parts, ∀ id, t.tokenToId.lookup (image bs) = some id → t.decodeId id = bs) :
    t.decode ((parts.map image).filterMap t.tokenToId.lookup) = parts.flatten := by
  induction parts with
  | nil => rfl
  | cons bs parts ih =>
    obtain ⟨id, found⟩ := Option.isSome_iff_exists.mp (known bs (by simp))
    rw [List.map_cons, List.filterMap_cons, found]
    have rest := ih (fun bs member => known bs (.tail _ member)) (fun bs member => readsBack bs (.tail _ member))
    rw [decode, List.flatMap_cons, readsBack bs (by simp) id found, List.flatten_cons, ← rest, decode]

section
variable (alphabet : t.HasAlphabet) (products : t.HasProducts)

include alphabet products

theorem decode_bpePiece {piece : Bytes}
    (readsBack : ∀ bs id, bs <:+: piece → t.tokenToId.lookup (image bs) = some id → t.decodeId id = bs) :
    t.decode (t.bpePiece (image piece)) = piece := by
  unfold bpePiece
  split
  · rename_i id whole
    rw [decode, List.flatMap_singleton]
    exact readsBack piece id (List.infix_refl piece) whole
  · have split : splitSymbols (image piece) = (piece.map fun b => [b]).map image := by
      rw [splitSymbols_image, List.map_map]
      exact List.map_congr_left fun b _ => by rw [Function.comp_apply, image_singleton]
    obtain ⟨merged, eq, flatten, known⟩ := mergeLoop_spec products (piece.map fun b => [b]) (by
      intro bs member
      obtain ⟨b, _, rfl⟩ := List.mem_map.mp member
      rw [image_singleton]
      exact alphabet b)
    have whole : merged.flatten = piece := by
      rw [flatten, ← List.flatMap_def, List.flatMap_singleton']
    rw [split, eq, decode_known merged known, whole]
    intro bs member id found
    have inside := List.infix_of_mem_flatten member
    rw [whole] at inside
    exact readsBack bs id inside found

theorem decode_encodePlain {segment : Bytes}
    (readsBack : ∀ bs id, bs <:+: segment → t.tokenToId.lookup (image bs) = some id → t.decodeId id = bs) :
    t.decode (t.encodePlain u segment) = segment := by
  have whole : (t.pieces u (decodeUtf8 segment)).flatten = segment := by
    rw [pieces_flatten, decodeUtf8_bytes]
  have piecewise : ∀ piece ∈ t.pieces u (decodeUtf8 segment), t.decode (t.bpePiece (image piece)) = piece := by
    intro piece member
    have inside := List.infix_of_mem_flatten member
    rw [whole] at inside
    exact decode_bpePiece alphabet products fun bs id part => readsBack bs id (part.trans inside)
  calc t.decode (t.encodePlain u segment)
      = (t.pieces u (decodeUtf8 segment)).flatMap fun piece => t.decode (t.bpePiece (image piece)) := List.flatMap_assoc
    _ = (t.pieces u (decodeUtf8 segment)).flatMap id := List.flatMap_congr piecewise
    _ = segment := by rw [List.flatMap_id, whole]

end

/-! ### Added tokens -/

/-- The text holds no added token's literal. -/
def NoLiteral (t : BpeTokenizer) (text : Bytes) : Prop := ∀ lit id, (lit, id) ∈ t.specialTokens → ¬lit <:+: text

/-- A literal that reads as alphabet symbols is the text those symbols stand for. -/
def OwnImage (t : BpeTokenizer) : Prop := ∀ lit id bs, (lit, id) ∈ t.specialTokens → lit = image bs → lit = bs

theorem NoLiteral.within {text part : Bytes} (clean : t.NoLiteral text) (inside : part <:+: text) : t.NoLiteral part :=
  fun lit id member found => clean lit id member (found.trans inside)

theorem NoLiteral.literalAt {text : Bytes} (clean : t.NoLiteral text) : t.literalAt text = none := by
  unfold BpeTokenizer.literalAt
  split
  · refine List.find?_eq_none.mpr fun p member starts => ?_
    exact clean p.1 p.2 member (List.isPrefixOf_iff_prefix.mp starts).isInfix
  · rfl

/-- Without a literal the whole text is plain. -/
theorem encodeLoop_plain (run rest : Bytes) (clean : t.NoLiteral rest) :
    t.encodeLoop u run rest = some (t.encodePlain u (run ++ rest)) := by
  induction rest generalizing run with
  | nil => rw [encodeLoop, List.append_nil]
  | cons c rest ih =>
    rw [encodeLoop, clean.literalAt, ih (run ++ [c]) (clean.within (List.suffix_cons c rest).isInfix), List.append_assoc]
    rfl

/-- The id of an image is read back as its bytes, unless the image is an added token's. -/
theorem decodeId_image (consistent : t.Consistent) (distinct : t.DistinctIds) (own : t.OwnImage) {bs : Bytes} {id : Int}
    (clean : t.NoLiteral bs) (found : t.tokenToId.lookup (image bs) = some id) : t.decodeId id = bs := by
  obtain ⟨nonneg, token⟩ := consistent.token found
  have inside : id.toNat < t.idToToken.length := (List.getElem?_eq_some_iff.mp token).1
  have ordinary : id ∉ t.specialIds := by
    intro special
    obtain ⟨lit, member⟩ := consistent.special special
    obtain rfl : lit = image bs := distinct _ _ id (.inr member) (.inl found)
    rw [own _ id bs member rfl] at member
    exact clean bs id member (List.infix_refl bs)
  unfold decodeId
  rw [if_neg (by omega), if_neg (by simpa using ordinary), List.getD_eq_getElem?_getD, token, Option.getD_some,
    tokenBytes_image]

/-- A control token and the byte alphabet. -/
def byteTokens : List Bytes := .ofAscii "<|end|>" :: (List.range 256).map fun b => toUni (UInt8.ofNat b)

theorem byteTokens_literal {lit : Bytes} {id : Int} (member : (lit, id) ∈ (assembleGguf byteTokens [] [3] "gpt2").specialTokens) :
    lit = .ofAscii "<|end|>" := by
  obtain ⟨_, token, isAdded⟩ := mem_ggufSpecial.mp member
  generalize id.toNat = i at token isAdded
  cases i with
  | zero => exact (Option.some.inj token).symm
  | succ i => cases isAdded

end BpeTokenizer

end Mlxforge
