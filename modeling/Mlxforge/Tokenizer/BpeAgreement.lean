import Mlxforge.Tokenizer.BpeLoaders

/-!
One tokenizer description, written as a `tokenizer.json` and as GGUF arrays: both loaders give the same encoder, and
the same decoder unless a non-special added token has text.
-/

namespace Mlxforge

/-! ### The longest match -/

section
variable {α : Type} {f : α → Nat} {p : α → Bool} {l l' : List α}

theorem le_of_find? (sorted : l.Pairwise fun a b => f b ≤ f a) {a b : α} (found : l.find? p = some a) (member : b ∈ l)
    (holds : p b = true) : f b ≤ f a := by
  obtain ⟨_, before, after, rfl, fails⟩ := List.find?_eq_some_iff_append.mp found
  rcases List.mem_append.mp member with early | late
  · have := fails b early
    rw [holds] at this
    cases this
  · rcases List.mem_cons.mp late with rfl | late
    · exact le_rfl
    · exact (List.pairwise_cons.mp (List.pairwise_append.mp sorted).2.1).1 b late

/-- The first match in descending order does not depend on how ties are ordered, when equal matches are one. -/
theorem find?_eq_of_perm (perm : l.Perm l') (sorted : l.Pairwise fun a b => f b ≤ f a)
    (sorted' : l'.Pairwise fun a b => f b ≤ f a)
    (one : ∀ a ∈ l, ∀ b ∈ l, p a = true → p b = true → f a = f b → a = b) : l.find? p = l'.find? p := by
  cases found : l.find? p with
  | none =>
    refine (List.find?_eq_none.mpr fun a member => ?_).symm
    exact List.find?_eq_none.mp found a (perm.mem_iff.mpr member)
  | some a =>
    have ha := List.mem_of_find?_eq_some found
    have pa := List.find?_some found
    cases found' : l'.find? p with
    | none => exact absurd pa (List.find?_eq_none.mp found' a (perm.mem_iff.mp ha))
    | some b =>
      have hb := List.mem_of_find?_eq_some found'
      have pb := List.find?_some found'
      have below := le_of_find? sorted found (perm.mem_iff.mpr hb) pb
      have above := le_of_find? sorted' found' (perm.mem_iff.mp ha) pa
      rw [one a ha b (perm.mem_iff.mpr hb) pa pb (le_antisymm above below)]

end

theorem longestFirst_sorted (literals : List (Bytes × Int)) :
    (longestFirst literals).Pairwise fun a b => b.1.length ≤ a.1.length := by
  have sorted : (literals.mergeSort fun a b => decide (b.1.length ≤ a.1.length)).Pairwise
      fun a b => decide (b.1.length ≤ a.1.length) = true := List.pairwise_mergeSort
    (fun a b c ab bc => by simp at ab bc ⊢; omega) (fun a b => by simp; omega) literals
  unfold longestFirst
  simpa using sorted

namespace BpeTokenizer

/-! ### What encoding depends on -/

section
variable {t t' : BpeTokenizer} (ranks : ∀ key, t.mergeRanks.lookup key = t'.mergeRanks.lookup key)
  (tokens : ∀ tok, t.tokenToId.lookup tok = t'.tokenToId.lookup tok) (cap : t.digitRunMax = t'.digitRunMax)
  (literals : ∀ rest, t.literalAt rest = t'.literalAt rest)

include ranks in
theorem bestPair_congr (best : Option (Nat × Bytes × Bytes)) (symbols : List Bytes) :
    t.bestPair best symbols = t'.bestPair best symbols := by
  induction symbols generalizing best with
  | nil => rfl
  | cons a rest ih =>
    cases rest with
    | nil => rfl
    | cons b rest => rw [bestPair, bestPair, ranks, ih]

include ranks in
theorem mergeLoop_congr (symbols : List Bytes) : t.mergeLoop symbols = t'.mergeLoop symbols := by
  fun_induction mergeLoop t symbols with
  | case1 symbols none =>
    rw [bestPair_congr ranks] at none
    rw [mergeLoop]
    split
    · rfl
    · rename_i found
      rw [none] at found
      cases found
  | case2 symbols rank a b found ih =>
    rw [bestPair_congr ranks] at found
    rw [ih]
    conv_rhs => unfold mergeLoop
    split
    · rename_i none
      rw [none] at found
      cases found
    · rename_i found'
      rw [found] at found'
      cases found'
      rfl

include ranks tokens in
theorem bpePiece_congr (piece : Bytes) : t.bpePiece piece = t'.bpePiece piece := by
  unfold bpePiece
  rw [mergeLoop_congr ranks, tokens, List.filterMap_congr fun symbol _ => tokens symbol]

variable {u : UnicodeTables}

include cap in
theorem pieces_congr (cp : List Codepoint) : t.pieces u cp = t'.pieces u cp := by
  fun_induction pieces t u cp with
  | case1 => rw [pieces]
  | case2 c rest ih =>
    rw [ih]
    conv_rhs => unfold pieces
    simp only [pieceLength, cap]

include ranks tokens cap in
theorem encodePlain_congr (segment : Bytes) : t.encodePlain u segment = t'.encodePlain u segment := by
  unfold encodePlain
  rw [pieces_congr cap]
  exact List.flatMap_congr fun piece _ => bpePiece_congr ranks tokens _

include ranks tokens cap literals in
/-- Two tokenizers that agree on lookups, ranks, the digit cap and the literals encode alike. -/
theorem encodeLoop_congr (run rest : Bytes) : t.encodeLoop u run rest = t'.encodeLoop u run rest := by
  fun_induction encodeLoop t u run rest with
  | case1 run => rw [encodeLoop, encodePlain_congr ranks tokens cap]
  | case2 run c rest none ih =>
    rw [literals] at none
    rw [encodeLoop, none, ih]
  | case3 run c rest id found =>
    rw [literals] at found
    rw [encodeLoop, found]
    simp only [if_true]
  | case4 run c rest lit id found some_lit ih =>
    rw [literals] at found
    rw [encodeLoop, found, ih, encodePlain_congr ranks tokens cap]
    simp only [some_lit, if_false]

end

/-! ### Descriptions -/

/-- A rule as `tokenizer.json` may write it: one string, or a pair. -/
inductive MergeRule where
  | joined (l r : Bytes)
  | pair (l r : Bytes)

def MergeRule.key : MergeRule → Bytes
  | .joined l r => mergeKey l r
  | .pair l r => mergeKey l r

def MergeRule.json : MergeRule → Json
  | .joined l r => .str (mergeKey l r)
  | .pair l r => .arr [.str l, .str r]

/-- A byte-level BPE tokenizer: the index of a token is its id. -/
structure Description where
  tokens : List Bytes
  merges : List MergeRule
  /-- The added tokens in the order of the file, each with its `special` flag. -/
  added : List (Nat × Bool)
  /-- The ids `model.vocab` lists. An added token may be among them. -/
  vocab : List Nat
  preTokenizer : Option Json
  pre : String
  tokens_nodup : tokens.Nodup
  added_nodup : (added.map (·.1)).Nodup
  added_nonempty : ∀ a ∈ added, ∃ tok, tokens[a.1]? = some tok ∧ tok ≠ []
  vocab_lt : ∀ i ∈ vocab, i < tokens.length
  covered : ∀ i < tokens.length, i ∈ vocab ∨ i ∈ added.map (·.1)

namespace Description

variable (d : Description)

def token (i : Nat) : Bytes := d.tokens.getD i []

def vocabFields : List (Bytes × Json) := d.vocab.map fun i => (d.token i, .int i)

def addedJson (a : Nat × Bool) : Json :=
  .obj [(.ofAscii "id", .int a.1), (.ofAscii "content", .str (d.token a.1)), (.ofAscii "special", .bool a.2)]

def modelJson : Json :=
  .obj [
    (.ofAscii "merges", .arr (d.merges.map MergeRule.json)),
    (.ofAscii "type", .str (.ofAscii "BPE")),
    (.ofAscii "vocab", .obj d.vocabFields)]

/-- The parsed `tokenizer.json`. -/
def toJson : Json :=
  .obj ([(.ofAscii "added_tokens", .arr (d.added.map d.addedJson)), (.ofAscii "model", d.modelJson)] ++
    d.preTokenizer.toList.map fun pt => (.ofAscii "pre_tokenizer", pt))

/-- `tokenizer.ggml.token_type`: CONTROL for special, USER_DEFINED for other added tokens, NORMAL for the rest. -/
def tokenTypes : List Int := (List.range d.tokens.length).map fun i =>
  match d.added.lookup i with
  | some true => 3
  | some false => 4
  | none => 1

def addedList : List AddedToken := d.added.map fun a => ⟨d.token a.1, a.1, a.2⟩

def blobVocab : List (Bytes × Int) := d.vocab.map fun i => (d.token i, (i : Int))

theorem mergeEntry_json (rule : MergeRule) : mergeEntry rule.json = .ok rule.key := by
  cases rule <;> rfl

theorem addedEntry_json (a : Nat × Bool) : addedEntry (d.addedJson a) = .ok (some ⟨d.token a.1, a.1, a.2⟩) := rfl

theorem addedTokens_toJson : addedTokens d.toJson = .ok d.addedList := by
  have found : d.toJson.find? "added_tokens" = some (.arr (d.added.map d.addedJson)) := rfl
  have read : (d.added.map d.addedJson).mapM addedEntry = .ok (d.addedList.map some) := by
    rw [List.mapM_map, addedList, List.map_map]
    exact mapM_ok fun a _ => d.addedEntry_json a
  unfold addedTokens
  rw [found]
  simp only [read, ok_bind]
  simp
  rfl

/-- The file is read back in full. -/
theorem fromBlob_toJson {num : Rat → Bytes} {parse : Bytes → Option Json} {blob : Bytes} {cap : {n : Nat // 0 < n}}
    (reads : parse blob = some d.toJson) (capped : digitCap num d.toJson = .ok cap) :
    fromBlob num parse blob = .ok (assemble cap.1 cap.2 d.blobVocab (d.merges.map MergeRule.key) d.addedList) := by
  have vocab : d.vocabFields.mapM vocabEntry = .ok d.blobVocab := by
    rw [vocabFields, List.mapM_map]
    exact mapM_ok fun i _ => rfl
  have keys : (d.merges.map MergeRule.json).mapM mergeEntry = .ok (d.merges.map MergeRule.key) := by
    rw [List.mapM_map]
    exact mapM_ok fun rule _ => mergeEntry_json rule
  have natural : ((d.blobVocab.map (·.2) ++ d.addedList.map (·.id)).any (· < 0)) = false := by
    simp [blobVocab, addedList]
  have parsed : parsed parse blob = .ok d.toJson := by rw [BpeTokenizer.parsed, reads]
  have model : bpeModel d.toJson = .ok d.modelJson := rfl
  have entries : vocabEntries d.modelJson = .ok d.blobVocab := vocab
  have ranked : mergeKeys d.modelJson = .ok (d.merges.map MergeRule.key) := keys
  unfold fromBlob
  rw [parsed, ok_bind, model, ok_bind, capped, ok_bind, entries, ok_bind, ranked, ok_bind, addedTokens_toJson, ok_bind,
    natural]
  rfl

/-! ### The tables agree -/

variable {d}

theorem token_getElem? {i : Nat} (inside : i < d.tokens.length) : d.tokens[i]? = some (d.token i) := by
  rw [token, List.getD_eq_getElem?_getD, List.getElem?_eq_getElem inside, Option.getD_some]

theorem added_lt {a : Nat × Bool} (member : a ∈ d.added) : a.1 < d.tokens.length := by
  obtain ⟨tok, found, _⟩ := d.added_nonempty a member
  exact (List.getElem?_eq_some_iff.mp found).1

/-- A table that lists the tokens, each under its index, is determined by that. -/
structure Indexes (d : Description) (table : AList fun _ : Bytes => Int) : Prop where
  index : ∀ {tok id}, table.lookup tok = some id → 0 ≤ id ∧ d.tokens[id.toNat]? = some tok
  complete : ∀ {tok}, tok ∈ d.tokens → (table.lookup tok).isSome

theorem Indexes.lookup_eq {table table' : AList fun _ : Bytes => Int} (indexes : d.Indexes table)
    (indexes' : d.Indexes table') (tok : Bytes) : table.lookup tok = table'.lookup tok := by
  cases found : table.lookup tok with
  | none =>
    cases found' : table'.lookup tok with
    | none => rfl
    | some id =>
      have known := indexes.complete (List.mem_of_getElem? (indexes'.index found').2)
      rw [found] at known
      cases known
  | some id =>
    obtain ⟨nonneg, here⟩ := indexes.index found
    obtain ⟨id', found'⟩ := Option.isSome_iff_exists.mp (indexes'.complete (List.mem_of_getElem? here))
    obtain ⟨nonneg', here'⟩ := indexes'.index found'
    have inside := (List.getElem?_eq_some_iff.mp here).1
    have same := (List.getElem?_inj inside d.tokens_nodup).mp (here.trans here'.symm)
    rw [found', show id = id' by omega]

section
variable {cap : Nat} {pos : 0 < cap} {keys : List Bytes} {pre : String}

theorem mem_blobEntries {tok : Bytes} {id : Int}
    (member : (tok, id) ∈ (d.addedList.map fun a => (a.content, a.id)) ∨ (tok, id) ∈ d.blobVocab) :
    0 ≤ id ∧ d.tokens[id.toNat]? = some tok := by
  rcases member with isAdded | isVocab
  · rw [addedList, List.map_map] at isAdded
    obtain ⟨a, member, eq⟩ := List.mem_map.mp isAdded
    obtain ⟨rfl, rfl⟩ := Prod.mk.inj eq
    exact ⟨by simp, by simpa using token_getElem? (added_lt member)⟩
  · obtain ⟨i, member, eq⟩ := List.mem_map.mp isVocab
    obtain ⟨rfl, rfl⟩ := Prod.mk.inj eq
    exact ⟨by omega, by simpa using token_getElem? (d.vocab_lt i member)⟩

theorem blob_indexes : d.Indexes (assemble cap pos d.blobVocab keys d.addedList).tokenToId where
  index {tok id} found := by
    rw [assemble_lookup, Option.or_eq_some_iff] at found
    rcases found with isAdded | ⟨_, isVocab⟩
    · exact mem_blobEntries (.inl (List.mem_reverse.mp (mem_of_lookup isAdded)))
    · exact mem_blobEntries (.inr (mem_of_lookup isVocab))
  complete {tok} member := by
    obtain ⟨i, here⟩ := List.getElem?_of_mem member
    have inside := (List.getElem?_eq_some_iff.mp here).1
    obtain rfl : d.token i = tok := Option.some.inj ((token_getElem? inside).symm.trans here)
    rw [assemble_lookup, Option.isSome_or, Bool.or_eq_true, List.lookup_isSome_iff, List.lookup_isSome_iff]
    rcases d.covered i inside with isVocab | isAdded
    · exact .inr ⟨(d.token i, i), List.mem_map_of_mem isVocab, by simp⟩
    · obtain ⟨a, listed, rfl⟩ := List.mem_map.mp isAdded
      refine .inl ⟨(d.token a.1, a.1), List.mem_reverse.mpr ?_, by simp⟩
      rw [addedList, List.map_map]
      exact List.mem_map_of_mem listed

theorem gguf_indexes : d.Indexes (assembleGguf d.tokens keys d.tokenTypes pre).tokenToId where
  index found := assembleGguf_listed (.inl found)
  complete := assembleGguf_knows

theorem mem_ids {id : Int} : id ∈ d.blobVocab.map (·.2) ++ d.addedList.map (·.id) ↔ 0 ≤ id ∧ id < d.tokens.length := by
  rw [blobVocab, addedList, List.map_map, List.map_map, List.mem_append, List.mem_map, List.mem_map]
  constructor
  · rintro (⟨i, member, rfl⟩ | ⟨a, member, rfl⟩)
    · exact ⟨by simp, by simpa using d.vocab_lt i member⟩
    · exact ⟨by simp, by simpa using added_lt member⟩
  · rintro ⟨nonneg, below⟩
    rcases d.covered id.toNat (by omega) with isVocab | isAdded
    · exact .inl ⟨id.toNat, isVocab, by simp [nonneg]⟩
    · obtain ⟨a, member, eq⟩ := List.mem_map.mp isAdded
      exact .inr ⟨a, member, by simp [eq, nonneg]⟩

/-- The ids are those from 0 up, so the table is the token list. -/
theorem blob_idToToken : (assemble cap pos d.blobVocab keys d.addedList).idToToken = d.tokens := by
  have upper : ∀ (ids : List Int) (start bound : Int), start ≤ bound → (∀ id ∈ ids, id ≤ bound) → ids.foldl max start ≤ bound := by
    intro ids
    induction ids with
    | nil => exact fun _ _ h _ => h
    | cons i ids ih =>
      exact fun start bound h all => ih _ bound (max_le h (all i (by simp))) fun id later => all id (.tail _ later)
  have size : ((d.blobVocab.map (·.2) ++ d.addedList.map (·.id)).foldl max (-1) + 1).toNat = d.tokens.length := by
    have below := upper (d.blobVocab.map (·.2) ++ d.addedList.map (·.id)) (-1) (d.tokens.length - 1) (by omega)
      (fun id member => by have := mem_ids.mp member; omega)
    have above : d.tokens.length ≤ (d.blobVocab.map (·.2) ++ d.addedList.map (·.id)).foldl max (-1) + 1 := by
      rcases Nat.eq_zero_or_pos d.tokens.length with zero | some_token
      · have := le_foldl_max (d.blobVocab.map (·.2) ++ d.addedList.map (·.id)) _ (.inr (le_refl (-1)))
        omega
      · have := le_foldl_max _ (-1) (.inl (mem_ids.mpr
          (show 0 ≤ (d.tokens.length : Int) - 1 ∧ (d.tokens.length : Int) - 1 < d.tokens.length by omega)))
        omega
    omega
  refine List.ext_getElem? fun i => ?_
  simp only [assemble]
  rw [size]
  rcases Nat.lt_or_ge i d.tokens.length with inside | outside
  · obtain ⟨id, found⟩ := Option.isSome_iff_exists.mp
      ((blob_indexes : d.Indexes (assemble cap pos d.blobVocab keys d.addedList).tokenToId).complete (List.mem_of_getElem? (token_getElem? inside)))
    obtain ⟨nonneg, here⟩ := blob_indexes.index found
    obtain rfl := (List.getElem?_inj inside d.tokens_nodup).mp ((token_getElem? inside).trans here.symm)
    rw [token_getElem? inside]
    refine tokenTable_getElem? (mem_entriesOf.mpr found) (by omega) fun e member other => ?_
    have listed : (assemble cap pos d.blobVocab keys d.addedList).tokenToId.lookup e.1 = some e.2 := mem_entriesOf.mp member
    obtain ⟨_, there⟩ := blob_indexes.index listed
    rw [other, here] at there
    exact (Option.some.inj there).symm
  · rw [List.getElem?_eq_none outside, List.getElem?_eq_none (by rwa [tokenTable_length])]

theorem isAddedType_tokenTypes (i : Nat) : isAddedType d.tokenTypes i = true ↔ i ∈ d.added.map (·.1) := by
  unfold isAddedType tokenTypes
  rw [List.mem_map]
  rcases Nat.lt_or_ge i d.tokens.length with inside | outside
  · simp only [List.getD_eq_getElem?_getD, List.getElem?_map, List.getElem?_range inside, Option.map_some, Option.getD_some]
    cases flag : d.added.lookup i with
    | none =>
      have absent := List.lookup_eq_none_iff.mp flag
      simp only [bne_iff_ne] at absent
      exact ⟨fun wrong => by simp at wrong, fun ⟨a, member, eq⟩ => absurd eq.symm (absent a member)⟩
    | some special =>
      obtain ⟨l, r, eq, _⟩ := List.lookup_eq_some_iff.mp flag
      exact ⟨fun _ => ⟨(i, special), by simp [eq], rfl⟩, fun _ => by cases special <;> rfl⟩
  · simp only [List.getD_eq_getElem?_getD, List.getElem?_map, List.getElem?_eq_none (l := List.range _) (by simpa using outside)]
    refine ⟨fun wrong => by simp at wrong, fun ⟨a, member, eq⟩ => ?_⟩
    have := added_lt member
    omega

theorem mem_blobSpecial {tok : Bytes} {id : Int} :
    (tok, id) ∈ (assemble cap pos d.blobVocab keys d.addedList).specialTokens ↔
      0 ≤ id ∧ d.tokens[id.toNat]? = some tok ∧ id.toNat ∈ d.added.map (·.1) := by
  rw [assemble, mem_longestFirst, addedList, List.map_map, List.mem_map]
  constructor
  · rintro ⟨a, member, eq⟩
    obtain ⟨rfl, rfl⟩ := Prod.mk.inj eq
    exact ⟨by simp, by simpa using token_getElem? (added_lt member), by simpa using List.mem_map_of_mem (f := (·.1)) member⟩
  · rintro ⟨nonneg, here, isAdded⟩
    obtain ⟨a, member, eq⟩ := List.mem_map.mp isAdded
    refine ⟨a, member, ?_⟩
    rw [← eq, token_getElem? (added_lt member)] at here
    obtain rfl := Option.some.inj here
    simp [eq, nonneg]

theorem mem_literals_iff {p : Bytes × Int} :
    p ∈ (assemble cap pos d.blobVocab keys d.addedList).specialTokens ↔
      p ∈ (assembleGguf d.tokens keys d.tokenTypes pre).specialTokens := by
  obtain ⟨tok, id⟩ := p
  rw [mem_blobSpecial, mem_ggufSpecial, isAddedType_tokenTypes]

/-- The same literals, up to the order. -/
theorem literals_perm : (assemble cap pos d.blobVocab keys d.addedList).specialTokens.Perm
    (assembleGguf d.tokens keys d.tokenTypes pre).specialTokens := by
  refine (List.perm_ext_iff_of_nodup ?_ ?_).mpr fun _ => mem_literals_iff
  · refine (List.mergeSort_perm _ _).nodup_iff.mpr (List.Nodup.of_map (fun p => p.2) ?_)
    rw [addedList, List.map_map, List.map_map]
    have := d.added_nodup.map Nat.cast_injective (β := Int)
    rwa [List.map_map] at this
  · refine (List.mergeSort_perm _ _).nodup_iff.mpr (List.Nodup.of_map (fun p => p.2.toNat) ?_)
    have ids : (fun p : Bytes × Int => p.2.toNat) ∘ (fun p : Bytes × Nat => (p.1, (p.2 : Int))) = Prod.snd := by
      funext p
      simp
    rw [List.map_map, ids]
    refine List.Nodup.sublist (List.filter_sublist.map _) ?_
    rw [List.zipIdx_map_snd]
    exact List.nodup_range'

theorem mem_blobFirst {b : UInt8} : b ∈ (assemble cap pos d.blobVocab keys d.addedList).specialFirstBytes ↔
    ∃ p ∈ (assemble cap pos d.blobVocab keys d.addedList).specialTokens, p.1.head? = some b := by
  simp only [assemble, mem_longestFirst, List.mem_filterMap, List.mem_map]
  constructor
  · rintro ⟨a, member, first⟩
    exact ⟨_, ⟨a, member, rfl⟩, first⟩
  · rintro ⟨_, ⟨a, member, rfl⟩, first⟩
    exact ⟨a, member, first⟩

theorem mem_ggufFirst {b : UInt8} : b ∈ (assembleGguf d.tokens keys d.tokenTypes pre).specialFirstBytes ↔
    ∃ p ∈ (assembleGguf d.tokens keys d.tokenTypes pre).specialTokens, p.1.head? = some b := by
  simp only [assembleGguf, mem_longestFirst, List.mem_filterMap, List.mem_map]
  constructor
  · rintro ⟨a, member, first⟩
    exact ⟨_, ⟨a, member, rfl⟩, first⟩
  · rintro ⟨_, ⟨a, member, rfl⟩, first⟩
    exact ⟨a, member, first⟩

/-- The literals are found in the same places, however ties are sorted. -/
theorem literalAt_eq (rest : Bytes) : (assemble cap pos d.blobVocab keys d.addedList).literalAt rest =
    (assembleGguf d.tokens keys d.tokenTypes pre).literalAt rest := by
  have first : ∀ b, (assemble cap pos d.blobVocab keys d.addedList).specialFirstBytes.contains b =
      (assembleGguf d.tokens keys d.tokenTypes pre).specialFirstBytes.contains b := by
    intro b
    rw [Bool.eq_iff_iff, List.contains_iff_mem, List.contains_iff_mem, mem_blobFirst, mem_ggufFirst]
    exact exists_congr fun p => and_congr_left fun _ => mem_literals_iff
  have longest : (assemble cap pos d.blobVocab keys d.addedList).specialTokens.find? (fun p => p.1.isPrefixOf rest) =
      (assembleGguf d.tokens keys d.tokenTypes pre).specialTokens.find? (fun p => p.1.isPrefixOf rest) := by
    refine find?_eq_of_perm (f := fun p => p.1.length) literals_perm (longestFirst_sorted _) (longestFirst_sorted _) ?_
    intro a ha b hb startsA startsB length
    have tok : a.1 = b.1 := (List.prefix_of_prefix_length_le (List.isPrefixOf_iff_prefix.mp startsA)
      (List.isPrefixOf_iff_prefix.mp startsB) length.le).eq_of_length length
    obtain ⟨nonneg, here, _⟩ := mem_blobSpecial.mp (show (a.1, a.2) ∈ _ from ha)
    obtain ⟨nonneg', here', _⟩ := mem_blobSpecial.mp (show (b.1, b.2) ∈ _ from hb)
    have same := (List.getElem?_inj (List.getElem?_eq_some_iff.mp here).1 d.tokens_nodup).mp
      (here.trans (tok ▸ here'.symm))
    exact Prod.ext tok (by omega)
  unfold literalAt
  rw [longest, funext first]

theorem mem_blobSpecialIds {id : Int} : id ∈ (assemble cap pos d.blobVocab keys d.addedList).specialIds ↔
    0 ≤ id ∧ (id.toNat, true) ∈ d.added := by
  simp only [assemble, addedList, List.mem_map, List.mem_filter]
  constructor
  · rintro ⟨_, ⟨⟨a, member, rfl⟩, flag⟩, rfl⟩
    exact ⟨by simp, by simpa [← flag] using member⟩
  · rintro ⟨nonneg, member⟩
    exact ⟨_, ⟨⟨_, member, rfl⟩, rfl⟩, by simp [nonneg]⟩

theorem mem_ggufSpecialIds {id : Int} : id ∈ (assembleGguf d.tokens keys d.tokenTypes pre).specialIds ↔
    0 ≤ id ∧ id.toNat ∈ d.added.map (·.1) := by
  simp only [assembleGguf, List.mem_map (f := fun p : Bytes × Nat => (p.2 : Int)), List.mem_filter, isAddedType_tokenTypes]
  constructor
  · rintro ⟨p, ⟨_, isAdded⟩, rfl⟩
    exact ⟨by simp, by simpa using isAdded⟩
  · rintro ⟨nonneg, isAdded⟩
    obtain ⟨a, member, eq⟩ := List.mem_map.mp isAdded
    have inside := added_lt member
    rw [eq] at inside
    exact ⟨(d.token id.toNat, id.toNat), ⟨List.mem_zipIdx_iff_getElem?.mpr (token_getElem? inside), isAdded⟩, by simp [nonneg]⟩

/-! ### What is read and written -/

theorem encode_eq (u : UnicodeTables) (capped : cap = ggufCap pre) (text : Bytes) :
    (assemble cap pos d.blobVocab keys d.addedList).encode u text =
      (assembleGguf d.tokens keys d.tokenTypes pre).encode u text := by
  have ranks : ∀ key, (assemble cap pos d.blobVocab keys d.addedList).mergeRanks.lookup key =
      (assembleGguf d.tokens keys d.tokenTypes pre).mergeRanks.lookup key := fun _ => rfl
  exact encodeLoop_congr ranks (blob_indexes.lookup_eq gguf_indexes) capped literalAt_eq [] text

/-- A non-special added token is read by one tokenizer and skipped by the other. -/
def Silent (d : Description) : Prop := ∀ a ∈ d.added, a.2 = false → tokenBytes (d.token a.1) = []

theorem decodeId_blob (a : Nat × Bool) (member : a ∈ d.added) (ordinary : a.2 = false) :
    (assemble cap pos d.blobVocab keys d.addedList).decodeId a.1 = tokenBytes (d.token a.1) := by
  have inside := added_lt member
  have unskipped : ((a.1 : Nat) : Int) ∉ (assemble cap pos d.blobVocab keys d.addedList).specialIds := by
    rw [mem_blobSpecialIds, Int.toNat_natCast]
    rintro ⟨_, flagged⟩
    have := List.inj_on_of_nodup_map d.added_nodup flagged member rfl
    rw [← this] at ordinary
    cases ordinary
  unfold decodeId
  rw [blob_idToToken, if_neg (by omega), if_neg (by simpa using unskipped), Int.toNat_natCast, token]

theorem decodeId_gguf (a : Nat × Bool) (member : a ∈ d.added) :
    (assembleGguf d.tokens keys d.tokenTypes pre).decodeId a.1 = [] := by
  have skipped : ((a.1 : Nat) : Int) ∈ (assembleGguf d.tokens keys d.tokenTypes pre).specialIds :=
    mem_ggufSpecialIds.mpr ⟨by omega, by simpa using List.mem_map_of_mem (f := (·.1)) member⟩
  unfold decodeId
  split
  · rfl
  · rw [if_pos (by simpa using skipped)]

theorem decodeId_eq (silent : d.Silent) (id : Int) : (assemble cap pos d.blobVocab keys d.addedList).decodeId id =
    (assembleGguf d.tokens keys d.tokenTypes pre).decodeId id := by
  by_cases isAdded : 0 ≤ id ∧ id.toNat ∈ d.added.map (·.1)
  · obtain ⟨nonneg, isAdded⟩ := isAdded
    obtain ⟨a, member, eq⟩ := List.mem_map.mp isAdded
    obtain rfl : (a.1 : Int) = id := by omega
    rw [decodeId_gguf a member]
    cases flag : a.2 with
    | false => rw [decodeId_blob a member flag, silent a member flag]
    | true =>
      have skipped : ((a.1 : Nat) : Int) ∈ (assemble cap pos d.blobVocab keys d.addedList).specialIds :=
        mem_blobSpecialIds.mpr ⟨by omega, by simpa [← flag] using member⟩
      unfold decodeId
      split
      · rfl
      · rw [if_pos (by simpa using skipped)]
  · have unskipped : id ∉ (assemble cap pos d.blobVocab keys d.addedList).specialIds := fun special =>
      isAdded ⟨(mem_blobSpecialIds.mp special).1, List.mem_map_of_mem (f := (·.1)) (mem_blobSpecialIds.mp special).2⟩
    have unskipped' : id ∉ (assembleGguf d.tokens keys d.tokenTypes pre).specialIds := fun special =>
      isAdded (mem_ggufSpecialIds.mp special)
    unfold decodeId
    rw [blob_idToToken, if_neg (c := List.contains _ _ = true) (by simpa using unskipped),
      if_neg (c := List.contains _ _ = true) (by simpa using unskipped')]
    rfl

end

/-- Tokenizers of one description that decode alike leave the non-special added tokens silent. -/
theorem silent_of_decode {num : Rat → Bytes} {parse : Bytes → Option Json} {blob : Bytes} {cap : {n : Nat // 0 < n}}
    {t t' : BpeTokenizer} (reads : parse blob = some d.toJson) (capped : digitCap num d.toJson = .ok cap)
    (built : fromBlob num parse blob = .ok t)
    (built' : fromGguf d.tokens (d.merges.map MergeRule.key) d.tokenTypes d.pre = .ok t')
    (decodes : ∀ ids, t.decode ids = t'.decode ids) : d.tokens ≠ [] ∧ d.Silent := by
  obtain rfl := Except.ok.inj ((d.fromBlob_toJson reads capped).symm.trans built)
  obtain ⟨rfl, some_token⟩ := fromGguf_ok built'
  refine ⟨some_token, fun a member ordinary => ?_⟩
  have same := decodes [a.1]
  simp only [decode, List.flatMap_singleton] at same
  rwa [decodeId_blob a member ordinary, decodeId_gguf a member] at same

end Description

/-- The two loaders build tokenizers that agree on every text and every id sequence exactly when there is a token and
every non-special added token reads as no bytes. -/
theorem same_tokenizer_iff (u : UnicodeTables) (num : Rat → Bytes) (parse : Bytes → Option Json) (d : Description)
    {blob : Bytes} {cap : {n : Nat // 0 < n}} (reads : parse blob = some d.toJson) (supported : supportedPre d.pre = true)
    (capped : digitCap num d.toJson = .ok cap) (matched : cap.1 = ggufCap d.pre) :
    (∃ t t', fromBlob num parse blob = .ok t ∧
        fromGguf d.tokens (d.merges.map MergeRule.key) d.tokenTypes d.pre = .ok t' ∧
        (∀ text, t.encode u text = t'.encode u text) ∧ ∀ ids, t.decode ids = t'.decode ids) ↔
      d.tokens ≠ [] ∧ d.Silent := by
  constructor
  · rintro ⟨t, t', built, built', _, decodes⟩
    exact Description.silent_of_decode reads capped built built' decodes
  · rintro ⟨some_token, silent⟩
    refine ⟨_, _, d.fromBlob_toJson reads capped, ?_, fun text => Description.encode_eq u matched text, fun ids => ?_⟩
    · unfold fromGguf
      rw [supported, if_neg (by simp), if_neg some_token]
    · exact List.flatMap_congr fun id _ => Description.decodeId_eq silent id

/-- A tokenizer with one added token that is not special. -/
def thinkOnly : Description where
  tokens := [.ofAscii "<think>"]
  merges := []
  added := [(0, false)]
  vocab := []
  preTokenizer := none
  pre := "qwen2"
  tokens_nodup := by decide
  added_nodup := by decide
  added_nonempty := by
    intro a member
    obtain rfl := List.mem_singleton.mp member
    exact ⟨_, rfl, by decide⟩
  vocab_lt := by simp
  covered := by simp

theorem thinkOnly_cap : digitCap (fun _ => []) thinkOnly.toJson = .ok ⟨1, by decide⟩ := rfl

theorem same_tokenizer_thinkOnly :
    (∃ t t', fromBlob (fun _ => []) (fun _ => some thinkOnly.toJson) [] = .ok t ∧
        fromGguf thinkOnly.tokens (thinkOnly.merges.map MergeRule.key) thinkOnly.tokenTypes thinkOnly.pre = .ok t' ∧
        (∀ text, t.encode ⟨fun _ => false, fun _ => false, fun _ => false⟩ text =
          t'.encode ⟨fun _ => false, fun _ => false, fun _ => false⟩ text) ∧ ∀ ids, t.decode ids = t'.decode ids) ↔
      thinkOnly.tokens ≠ [] ∧ thinkOnly.Silent :=
  same_tokenizer_iff _ (fun _ => []) (fun _ => some thinkOnly.toJson) thinkOnly rfl rfl
    thinkOnly_cap rfl

/-- `<think>` is decoded by one of its tokenizers only. -/
theorem thinkOnly_disagrees :
    ¬∃ t t', fromBlob (fun _ => []) (fun _ => some thinkOnly.toJson) [] = .ok t ∧
      fromGguf thinkOnly.tokens (thinkOnly.merges.map MergeRule.key) thinkOnly.tokenTypes thinkOnly.pre = .ok t' ∧
      (∀ text, t.encode ⟨fun _ => false, fun _ => false, fun _ => false⟩ text =
        t'.encode ⟨fun _ => false, fun _ => false, fun _ => false⟩ text) ∧ ∀ ids, t.decode ids = t'.decode ids := by
  rintro ⟨t, t', built, built', _, decodes⟩
  obtain ⟨_, silent⟩ := Description.silent_of_decode rfl thinkOnly_cap built built' decodes
  have read : tokenBytes (thinkOnly.token 0) = .ofAscii "<think>" := by decide +kernel
  have wrong := silent (0, false) (by decide) rfl
  rw [read] at wrong
  cases wrong

end BpeTokenizer

end Mlxforge
