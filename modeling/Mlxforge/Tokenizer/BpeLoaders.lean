import Mathlib.Data.List.Sort
import Mlxforge.Json.Value
import Mlxforge.Tokenizer.Bpe

/-!
The two ways to build a byte-level BPE tokenizer: from the text of a `tokenizer.json`, and from GGUF arrays.
-/

namespace Mlxforge

/-- `emplace`: an entry that is there stays. -/
def emplace {β : Type} (table : AList fun _ : Bytes => β) (entry : Bytes × β) : AList fun _ : Bytes => β :=
  if entry.1 ∈ table then table else table.insert entry.1 entry.2

/-- `operator[]` assignment. -/
def assign {β : Type} (table : AList fun _ : Bytes => β) (entry : Bytes × β) : AList fun _ : Bytes => β :=
  table.insert entry.1 entry.2

section
variable {β : Type} (table : AList fun _ : Bytes => β)

theorem lookup_emplace (entry : Bytes × β) (k : Bytes) :
    (emplace table entry).lookup k = (table.lookup k).or ([entry].lookup k) := by
  obtain ⟨key, v⟩ := entry
  unfold emplace
  rw [List.lookup_cons, List.lookup_nil]
  by_cases same : k = key
  · subst same
    split
    · rename_i there
      obtain ⟨_, found⟩ := Option.isSome_iff_exists.mp (AList.lookup_isSome.mpr there)
      rw [found, Option.some_or]
    · rename_i absent
      rw [AList.lookup_insert, AList.lookup_eq_none.mpr absent]
      simp
  · have differs : (k == key) = false := by simpa using same
    rw [differs]
    split
    · simp
    · rw [AList.lookup_insert_ne same]
      simp

theorem lookup_emplaces (entries : List (Bytes × β)) (k : Bytes) :
    (entries.foldl emplace table).lookup k = (table.lookup k).or (entries.lookup k) := by
  induction entries generalizing table with
  | nil => simp
  | cons e entries ih => rw [List.foldl_cons, ih, lookup_emplace, Option.or_assoc, ← List.lookup_append, List.singleton_append]

theorem lookup_assigns (entries : List (Bytes × β)) (k : Bytes) :
    (entries.foldl assign table).lookup k = (entries.reverse.lookup k).or (table.lookup k) := by
  induction entries generalizing table with
  | nil => simp
  | cons e entries ih =>
    obtain ⟨key, v⟩ := e
    rw [List.foldl_cons, ih, List.reverse_cons, List.lookup_append, Option.or_assoc, List.lookup_cons, List.lookup_nil]
    congr 1
    unfold assign
    by_cases same : k = key
    · subst same
      rw [AList.lookup_insert]
      simp
    · have differs : (k == key) = false := by simpa using same
      rw [AList.lookup_insert_ne same, differs]
      simp

end

theorem mem_of_lookup {α β : Type} [BEq α] [LawfulBEq α] {entries : List (α × β)} {k : α} {v : β}
    (found : entries.lookup k = some v) : (k, v) ∈ entries := by
  obtain ⟨l, r, rfl, _⟩ := List.lookup_eq_some_iff.mp found
  simp

/-- With distinct keys, every entry is found. -/
theorem lookup_of_mem {β : Type} {entries : List (Bytes × β)} (nodup : (entries.map (·.1)).Nodup) {k : Bytes} {v : β}
    (member : (k, v) ∈ entries) : entries.lookup k = some v := by
  obtain ⟨l, r, rfl⟩ := List.append_of_mem member
  refine List.lookup_eq_some_iff.mpr ⟨l, r, rfl, fun p before => ?_⟩
  rw [List.map_append, List.map_cons, List.nodup_append] at nodup
  simpa using (nodup.2.2 p.1 (List.mem_map_of_mem before) k (by simp)).symm

def rankMerges (keys : List Bytes) : AList fun _ : Bytes => Nat := keys.zipIdx.foldl emplace ∅

/-- Longest literal first. The code's sort leaves the order of literals of one length open. -/
def longestFirst (literals : List (Bytes × Int)) : List (Bytes × Int) :=
  literals.mergeSort fun a b => b.1.length ≤ a.1.length

structure AddedToken where
  content : Bytes
  id : Int
  special : Bool
  deriving DecidableEq

namespace BpeTokenizer

/-- The id-to-token table: every listed token at its id, the empty string elsewhere. -/
def tokenTable (size : Nat) (entries : List (Bytes × Int)) : List Bytes :=
  entries.foldl (fun table e => table.set e.2.toNat e.1) (List.replicate size [])

def entriesOf (table : AList fun _ : Bytes => Int) : List (Bytes × Int) := table.entries.map fun e => (e.1, e.2)

theorem tokenTable_length (size : Nat) (entries : List (Bytes × Int)) : (tokenTable size entries).length = size := by
  unfold tokenTable
  suffices ∀ table : List Bytes, (entries.foldl (fun table e => table.set e.2.toNat e.1) table).length = table.length by
    rw [this, List.length_replicate]
  induction entries with
  | nil => exact fun _ => rfl
  | cons e entries ih => exact fun table => (ih _).trans List.length_set

/-- A token stands at its id when no other token is listed there. -/
theorem tokenTable_getElem? {size : Nat} {entries : List (Bytes × Int)} {tok : Bytes} {id : Int} (listed : (tok, id) ∈ entries)
    (inside : id.toNat < size) (alone : ∀ e ∈ entries, e.2.toNat = id.toNat → e.1 = tok) :
    (tokenTable size entries)[id.toNat]? = some tok := by
  unfold tokenTable
  suffices ∀ table : List Bytes, id.toNat < table.length → ((tok, id) ∈ entries ∨ table[id.toNat]? = some tok) →
      (entries.foldl (fun table e => table.set e.2.toNat e.1) table)[id.toNat]? = some tok from
    this _ (by rwa [List.length_replicate]) (.inl listed)
  clear listed
  induction entries with
  | nil => exact fun _ _ there => there.resolve_left (List.not_mem_nil)
  | cons e entries ih =>
    intro table inside there
    refine ih (fun e' later => alone e' (.tail _ later)) (table.set e.2.toNat e.1) (by rwa [List.length_set]) ?_
    by_cases here : e.2.toNat = id.toNat
    · refine .inr ?_
      rw [here, List.getElem?_set_self inside, alone e List.mem_cons_self here]
    · rw [List.getElem?_set_ne here]
      exact there.imp_left fun member => (List.mem_cons.mp member).resolve_left fun same => here (by rw [← same])

/-- The tables `from_blob` fills. -/
def assemble (digitRunMax : Nat) (pos : 0 < digitRunMax) (vocab : List (Bytes × Int)) (keys : List Bytes)
    (added : List AddedToken) : BpeTokenizer :=
  let tokenToId := (added.map fun a => (a.content, a.id)).foldl assign (vocab.foldl emplace ∅)
  let maxId := (vocab.map (·.2) ++ added.map (·.id)).foldl max (-1)
  { digitRunMax
    digitRunMax_pos := pos
    tokenToId
    idToToken := tokenTable (maxId + 1).toNat (entriesOf tokenToId)
    mergeRanks := rankMerges keys
    -- the `special` flag only governs decode-skipping
    specialIds := (added.filter (·.special)).map (·.id)
    specialTokens := longestFirst (added.map fun a => (a.content, a.id))
    specialFirstBytes := added.filterMap fun a => a.content.head? }

def vocabEntry (field : Bytes × Json) : Except Exn (Bytes × Int) := do return (field.1, ← field.2.getInt)

def mergeEntry : Json → Except Exn Bytes
  | .str key => .ok key
  | .arr [l, r] => do return mergeKey (← l.getString) (← r.getString)
  | _ => .error (.runtime "bpe: unexpected merges entry shape")

/-- An entry without id or content is skipped. -/
def addedEntry (tok : Json) : Except Exn (Option AddedToken) :=
  match tok.find? "id", tok.find? "content" with
  | some id, some content => do
    let id ← id.getInt
    let content ← content.getString
    return some ⟨content, id, ← tok.value Json.getBool "special" false⟩
  | _, _ => .ok none

/-- Whether the split pattern caps digit runs at three: its text holds a repetition of one to three. -/
def capsAtThree (text : Bytes) : Bool := decide (Bytes.ofAscii "\x7b1,3\x7d" <:+: text)

section
variable (num : Rat → Bytes) (parse : Bytes → Option Json)

def digitCap (j : Json) : Except Exn {n : Nat // 0 < n} :=
  match j.find? "pre_tokenizer" with
  | none => .ok ⟨1, by decide⟩
  | some pt => do
    let text ← pt.dump num
    return if capsAtThree text then ⟨3, by decide⟩ else ⟨1, by decide⟩

def addedTokens (j : Json) : Except Exn (List AddedToken) :=
  match j.find? "added_tokens" with
  | some (.arr items) => do return (← items.mapM addedEntry).filterMap id
  | _ => .ok []

def parsed (blob : Bytes) : Except Exn Json :=
  match parse blob with
  | some j => .ok j
  | none => .error (.runtime "bpe: tokenizer.json is not valid JSON")

/-- The `model` subtree, which must be a byte-level BPE's. -/
def bpeModel (j : Json) : Except Exn Json :=
  match j.find? "model" with
  | none => .error (.runtime "bpe: only byte-level BPE tokenizers are supported")
  | some model => do
    let type ← model.value Json.getString "type" []
    if type = .ofAscii "BPE" then .ok model
    else .error (.runtime "bpe: only byte-level BPE tokenizers are supported")

def vocabEntries (model : Json) : Except Exn (List (Bytes × Int)) :=
  match model.find? "vocab" with
  | some (.obj vocab) => vocab.mapM vocabEntry
  | _ => .error (.runtime "bpe: model.vocab missing")

def mergeKeys (model : Json) : Except Exn (List Bytes) :=
  match model.find? "merges" with
  | some (.arr merges) => merges.mapM mergeEntry
  | _ => .error (.runtime "bpe: model.merges missing")

def fromBlob (blob : Bytes) : Except Exn BpeTokenizer := do
  let j ← parsed parse blob
  let model ← bpeModel j
  let cap ← digitCap num j
  let vocab ← vocabEntries model
  let keys ← mergeKeys model
  let added ← addedTokens j
  -- a negative id would index the table from below
  if (vocab.map (·.2) ++ added.map (·.id)).any (· < 0) then .error .undefined
  else .ok (assemble cap.1 cap.2 vocab keys added)

end

/-- `llama-bpe` and `llama3` cap digit runs at three. -/
def ggufCap (pre : String) : Nat := if pre = "llama-bpe" ∨ pre = "llama3" then 3 else 1

theorem ggufCap_pos (pre : String) : 0 < ggufCap pre := by
  unfold ggufCap
  split <;> decide

/-- Types 3 (CONTROL) and 4 (USER_DEFINED) mark the added tokens. -/
def isAddedType (tokenTypes : List Int) (id : Nat) : Bool :=
  let tt := tokenTypes.getD id 1
  tt == 3 || tt == 4

/-- The tables `from_gguf` fills. -/
def assembleGguf (tokens merges : List Bytes) (tokenTypes : List Int) (pre : String) : BpeTokenizer :=
  let added := tokens.zipIdx.filter fun p => isAddedType tokenTypes p.2
  { digitRunMax := ggufCap pre
    digitRunMax_pos := ggufCap_pos pre
    tokenToId := (tokens.zipIdx.map fun p => (p.1, (p.2 : Int))).foldl emplace ∅
    idToToken := tokens
    mergeRanks := rankMerges merges
    specialIds := added.map fun p => (p.2 : Int)
    specialTokens := longestFirst (added.map fun p => (p.1, (p.2 : Int)))
    specialFirstBytes := added.filterMap fun p => p.1.head? }

def supportedPre (pre : String) : Bool := pre == "llama-bpe" || pre == "llama3" || pre == "gpt2" || pre == "qwen2"

def fromGguf (tokens merges : List Bytes) (tokenTypes : List Int) (pre : String) : Except Exn BpeTokenizer :=
  if !supportedPre pre then
    .error (.runtime ("bpe: unsupported gguf pretokenizer '" ++ pre ++ "' (expected llama-bpe/llama3/gpt2/qwen2)"))
  else if tokens = [] then .error (.runtime "bpe: gguf has no tokenizer.ggml.tokens")
  else .ok (assembleGguf tokens merges tokenTypes pre)

/-! ### What both build -/

/-- The tokenizers the two functions return. -/
inductive Loaded (num : Rat → Bytes) (parse : Bytes → Option Json) (t : BpeTokenizer) : Prop where
  | blob (blob : Bytes) (built : fromBlob num parse blob = .ok t)
  | gguf (tokens merges : List Bytes) (tokenTypes : List Int) (pre : String)
      (built : fromGguf tokens merges tokenTypes pre = .ok t)

/-- A vocabulary entry or an added token. -/
def Lists (t : BpeTokenizer) (tok : Bytes) (id : Int) : Prop :=
  t.tokenToId.lookup tok = some id ∨ (tok, id) ∈ t.specialTokens

/-- No two tokens share an id. -/
def DistinctIds (t : BpeTokenizer) : Prop := ∀ tok tok' id, t.Lists tok id → t.Lists tok' id → tok = tok'

/-- Ids lead back to their tokens, and only ids of added tokens are skipped. -/
structure Consistent (t : BpeTokenizer) : Prop where
  token : ∀ {tok id}, t.tokenToId.lookup tok = some id → 0 ≤ id ∧ t.idToToken[id.toNat]? = some tok
  special : ∀ {id}, id ∈ t.specialIds → ∃ lit, (lit, id) ∈ t.specialTokens

variable {t : BpeTokenizer}

theorem mem_longestFirst {literals : List (Bytes × Int)} {p : Bytes × Int} :
    p ∈ longestFirst literals ↔ p ∈ literals := List.mem_mergeSort

section
variable {tokens merges : List Bytes} {tokenTypes : List Int} {pre : String}

theorem fromGguf_ok (built : fromGguf tokens merges tokenTypes pre = .ok t) :
    t = assembleGguf tokens merges tokenTypes pre ∧ tokens ≠ [] := by
  unfold fromGguf at built
  split at built
  · cases built
  split at built
  · cases built
  · rename_i some_tokens
    exact ⟨(Except.ok.inj built).symm, some_tokens⟩

theorem assembleGguf_lookup (tok : Bytes) : (assembleGguf tokens merges tokenTypes pre).tokenToId.lookup tok =
    (tokens.zipIdx.map fun p => (p.1, (p.2 : Int))).lookup tok := by
  rw [assembleGguf, lookup_emplaces, AList.lookup_empty, Option.none_or]

theorem mem_ggufEntries {tok : Bytes} {id : Int} :
    (tok, id) ∈ tokens.zipIdx.map (fun p => (p.1, (p.2 : Int))) ↔ 0 ≤ id ∧ tokens[id.toNat]? = some tok := by
  rw [List.mem_map]
  constructor
  · rintro ⟨⟨tok', i⟩, member, eq⟩
    obtain ⟨rfl, rfl⟩ := Prod.mk.inj eq
    exact ⟨by omega, by simpa using List.mem_zipIdx_iff_getElem?.mp member⟩
  · rintro ⟨nonneg, token⟩
    exact ⟨(tok, id.toNat), List.mem_zipIdx_iff_getElem?.mpr token, by simp [nonneg]⟩

theorem mem_ggufSpecial {tok : Bytes} {id : Int} :
    (tok, id) ∈ (assembleGguf tokens merges tokenTypes pre).specialTokens ↔
      0 ≤ id ∧ tokens[id.toNat]? = some tok ∧ isAddedType tokenTypes id.toNat := by
  rw [assembleGguf, mem_longestFirst, List.mem_map]
  constructor
  · rintro ⟨⟨tok', i⟩, member, eq⟩
    obtain ⟨rfl, rfl⟩ := Prod.mk.inj eq
    obtain ⟨member, isAdded⟩ := List.mem_filter.mp member
    exact ⟨by omega, by simpa using List.mem_zipIdx_iff_getElem?.mp member, isAdded⟩
  · rintro ⟨nonneg, token, isAdded⟩
    exact ⟨(tok, id.toNat), List.mem_filter.mpr ⟨List.mem_zipIdx_iff_getElem?.mpr token, isAdded⟩, by simp [nonneg]⟩

theorem assembleGguf_listed {tok : Bytes} {id : Int} (listed : (assembleGguf tokens merges tokenTypes pre).Lists tok id) :
    0 ≤ id ∧ tokens[id.toNat]? = some tok := by
  rcases listed with found | special
  · rw [assembleGguf_lookup] at found
    exact mem_ggufEntries.mp (mem_of_lookup found)
  · obtain ⟨nonneg, token, _⟩ := mem_ggufSpecial.mp special
    exact ⟨nonneg, token⟩

theorem assembleGguf_consistent : (assembleGguf tokens merges tokenTypes pre).Consistent := by
  constructor
  · exact fun found => assembleGguf_listed (.inl found)
  · intro id special
    obtain ⟨p, member, rfl⟩ := List.mem_map.mp special
    exact ⟨p.1, mem_longestFirst.mpr (List.mem_map.mpr ⟨p, member, rfl⟩)⟩

/-- In the arrays the index is the id. -/
theorem assembleGguf_distinct : (assembleGguf tokens merges tokenTypes pre).DistinctIds := by
  intro tok tok' id listed listed'
  have := (assembleGguf_listed listed).2.symm.trans (assembleGguf_listed listed').2
  exact Option.some.inj this

theorem assembleGguf_knows {tok : Bytes} (member : tok ∈ tokens) :
    ((assembleGguf tokens merges tokenTypes pre).tokenToId.lookup tok).isSome := by
  rw [assembleGguf_lookup, List.lookup_isSome_iff]
  obtain ⟨i, token⟩ := List.getElem?_of_mem member
  exact ⟨(tok, (i : Int)), mem_ggufEntries.mpr ⟨by omega, by simpa using token⟩, by simp⟩

end

theorem mem_entriesOf {table : AList fun _ : Bytes => Int} {tok : Bytes} {id : Int} :
    (tok, id) ∈ entriesOf table ↔ table.lookup tok = some id := by
  rw [entriesOf, List.mem_map, ← Option.mem_def, AList.mem_lookup_iff]
  constructor
  · rintro ⟨⟨tok', id'⟩, member, eq⟩
    obtain ⟨rfl, rfl⟩ := Prod.mk.inj eq
    exact member
  · exact fun member => ⟨⟨tok, id⟩, member, rfl⟩

theorem le_foldl_max (ids : List Int) (start : Int) {id : Int} (h : id ∈ ids ∨ id ≤ start) : id ≤ ids.foldl max start := by
  induction ids generalizing start with
  | nil => exact h.resolve_left List.not_mem_nil
  | cons i ids ih =>
    refine ih _ ?_
    rcases h with member | below
    · rcases List.mem_cons.mp member with rfl | later
      · exact .inr (le_max_right _ _)
      · exact .inl later
    · exact .inr (below.trans (le_max_left _ _))

section
variable {digitRunMax : Nat} {pos : 0 < digitRunMax} {vocab : List (Bytes × Int)} {keys : List Bytes}
  {added : List AddedToken}

/-- An added token's id wins over the vocabulary's. -/
theorem assemble_lookup (tok : Bytes) : (assemble digitRunMax pos vocab keys added).tokenToId.lookup tok =
    ((added.map fun a => (a.content, a.id)).reverse.lookup tok).or (vocab.lookup tok) := by
  simp only [assemble]
  rw [lookup_assigns, lookup_emplaces, AList.lookup_empty, Option.none_or]

theorem assemble_listed {tok : Bytes} {id : Int}
    (found : (assemble digitRunMax pos vocab keys added).tokenToId.lookup tok = some id) :
    id ∈ vocab.map (·.2) ++ added.map (·.id) := by
  rw [assemble_lookup, Option.or_eq_some_iff] at found
  rw [List.mem_append]
  rcases found with isAdded | ⟨_, isVocab⟩
  · obtain ⟨a, member, eq⟩ := List.mem_map.mp (List.mem_reverse.mp (mem_of_lookup isAdded))
    exact .inr (List.mem_map.mpr ⟨a, member, (Prod.mk.inj eq).2⟩)
  · exact .inl (List.mem_map.mpr ⟨_, mem_of_lookup isVocab, rfl⟩)

theorem assemble_consistent (natural : ∀ id ∈ vocab.map (·.2) ++ added.map (·.id), 0 ≤ id)
    (distinct : (assemble digitRunMax pos vocab keys added).DistinctIds) :
    (assemble digitRunMax pos vocab keys added).Consistent := by
  constructor
  · intro tok id found
    have listed := assemble_listed found
    have nonneg := natural id listed
    have below := le_foldl_max _ (-1) (.inl listed)
    refine ⟨nonneg, tokenTable_getElem? (mem_entriesOf.mpr found) (by omega) fun e member same => ?_⟩
    have other : (assemble digitRunMax pos vocab keys added).tokenToId.lookup e.1 = some e.2 := mem_entriesOf.mp member
    have := natural e.2 (assemble_listed other)
    obtain eq : e.2 = id := by omega
    exact distinct e.1 tok id (.inl (eq ▸ other)) (.inl found)
  · intro id special
    obtain ⟨a, member, rfl⟩ := List.mem_map.mp special
    exact ⟨a.content, mem_longestFirst.mpr (List.mem_map.mpr ⟨a, List.mem_of_mem_filter member, rfl⟩)⟩

end

variable {num : Rat → Bytes} {parse : Bytes → Option Json}

/-- A tokenizer `from_blob` returns is assembled from what the stages read. -/
theorem fromBlob_ok {blob : Bytes} (built : fromBlob num parse blob = .ok t) :
    ∃ (cap : {n : Nat // 0 < n}) (vocab : List (Bytes × Int)) (keys : List Bytes) (added : List AddedToken),
      t = assemble cap.1 cap.2 vocab keys added ∧ ∀ id ∈ vocab.map (·.2) ++ added.map (·.id), 0 ≤ id := by
  unfold fromBlob at built
  obtain ⟨j, _, built⟩ := bind_ok built
  obtain ⟨model, _, built⟩ := bind_ok built
  obtain ⟨cap, _, built⟩ := bind_ok built
  obtain ⟨vocab, _, built⟩ := bind_ok built
  obtain ⟨keys, _, built⟩ := bind_ok built
  obtain ⟨added, _, built⟩ := bind_ok built
  split at built
  · cases built
  · rename_i natural
    refine ⟨cap, vocab, keys, added, (Except.ok.inj built).symm, fun id member => ?_⟩
    simp only [List.any_eq_true, decide_eq_true_eq, not_exists, not_and, not_lt] at natural
    exact natural id member

theorem Loaded.consistent (loaded : Loaded num parse t) (distinct : t.DistinctIds) : t.Consistent := by
  obtain ⟨blob, built⟩ | ⟨_, _, _, _, built⟩ := loaded
  · obtain ⟨cap, vocab, keys, added, rfl, natural⟩ := fromBlob_ok built
    exact assemble_consistent natural distinct
  · obtain ⟨rfl, _⟩ := fromGguf_ok built
    exact assembleGguf_consistent

end BpeTokenizer

end Mlxforge
