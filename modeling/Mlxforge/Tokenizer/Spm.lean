import Mlxforge.Lib.Merging
import Mlxforge.Tokenizer.LiteralScan

/-!
The SentencePiece-style BPE tokenizer: spaces become a marker, the characters of the whole segment are merged, and a
symbol outside the vocabulary falls back to byte tokens.
-/

namespace Mlxforge

structure SpmBpeTokenizer where
  tokenToId : AList fun _ : Bytes => Int := ∅
  idToToken : List Bytes
  mergeRanks : AList fun _ : Bytes => Nat := ∅
  specialIds : List Int
  /-- Byte value to `<0xNN>` id, `-1` if absent. -/
  byteFallback : UInt8 → Int := fun _ => -1
  /-- `<0xNN>` id to byte value. -/
  byteTokenValue : List (Int × UInt8)
  unkId : Int := -1
  /-- The literals of the added tokens, longest first. -/
  specialTokens : List (Bytes × Int) := []
  specialFirstBytes : List UInt8 := []

namespace SpmBpeTokenizer

/-- U+2581, which stands in for a space. -/
def metaspace : Bytes := [0xE2, 0x96, 0x81]

/-- The length of the character that `c` leads, with `left` bytes left. -/
def charLength (c : UInt8) (left : Nat) : Nat :=
  if c ≥ 0xF0 ∧ 3 < left then 4 else if c ≥ 0xE0 ∧ 2 < left then 3 else if c ≥ 0xC0 ∧ 1 < left then 2 else 1

theorem charLength_pos (c : UInt8) (left : Nat) : 0 < charLength c left := by
  unfold charLength
  split_ifs <;> omega

/-- A malformed lead byte is taken as a single byte. -/
def utf8Chars (s : Bytes) : List Bytes :=
  match s with
  | [] => []
  | c :: rest =>
    (c :: rest).take (charLength c (rest.length + 1)) :: utf8Chars ((c :: rest).drop (charLength c (rest.length + 1)))
termination_by s.length
decreasing_by
  have := charLength_pos c (rest.length + 1)
  simp only [List.length_drop, List.length_cons]
  omega

def hexDigit (n : Nat) : UInt8 := (Bytes.ofAscii "0123456789ABCDEF").getD n 0

/-- `<0xNN>` -/
def byteTokenName (b : UInt8) : Bytes :=
  .ofAscii "<0x" ++ [hexDigit ((b >>> 4) &&& 0xF).toNat, hexDigit (b &&& 0xF).toNat] ++ .ofAscii ">"

/-- Metaspace to space. -/
def spaced : Bytes → Bytes
  | b :: c :: d :: tail => if [b, c, d] = metaspace then 0x20 :: spaced tail else b :: spaced (c :: d :: tail)
  | b :: rest => b :: spaced rest
  | [] => []

variable (t : SpmBpeTokenizer)

/-! ### Encoding -/

def emitSymbol (sym : Bytes) : List Int :=
  match t.tokenToId.lookup sym with
  | some id => [id]
  | none => sym.filterMap fun b =>
    if 0 ≤ t.byteFallback b then some (t.byteFallback b) else if 0 ≤ t.unkId then some t.unkId else none

/-- Every space becomes the metaspace marker. -/
def normalized (segment : Bytes) : Bytes := segment.flatMap fun ch => if ch = 0x20 then metaspace else [ch]

/-- The lowest rank of an adjacent pair, `best` being the lowest so far. -/
def bestRank (best : Option Nat) : List Bytes → Option Nat
  | a :: b :: rest =>
    let best := match t.mergeRanks.lookup (mergeKey a b) with
      | some rank => if best.all fun r => rank < r then some rank else best
      | none => best
    bestRank best (b :: rest)
  | _ => best

/-- One left-to-right pass that merges every pair of the rank. -/
def mergeRank (rank : Nat) : List Bytes → List Bytes
  | a :: b :: rest =>
    if t.mergeRanks.lookup (mergeKey a b) = some rank then (a ++ b) :: mergeRank rank rest
    else a :: mergeRank rank (b :: rest)
  | symbols => symbols

def pairRank (a b : Bytes) : Option Nat := t.mergeRanks.lookup (mergeKey a b)

variable {t} in
theorem bestRank_eq (best : Option Nat) (symbols : List Bytes) :
    t.bestRank best symbols = Option.merge min best (Merging.lowest t.pairRank symbols) := by
  induction symbols generalizing best with
  | nil => simp [bestRank, Merging.lowest]
  | cons a rest ih =>
    cases rest with
    | nil => simp [bestRank, Merging.lowest]
    | cons b rest =>
      rw [bestRank, ih, Merging.lowest, pairRank]
      cases t.mergeRanks.lookup (mergeKey a b) with
      | none => simp
      | some rank =>
        cases best with
        | none => simp
        | some r =>
          cases Merging.lowest t.pairRank (b :: rest) <;> simp <;> grind

variable {t} in
theorem mergeRank_eq (rank : Nat) (symbols : List Bytes) :
    t.mergeRank rank symbols = Merging.mergeEach t.pairRank (· ++ ·) rank symbols := by
  fun_induction mergeRank t rank symbols with
  | case1 a b rest rule ih => rw [Merging.mergeEach, pairRank, if_pos rule, ih]
  | case2 a b rest other ih => rw [Merging.mergeEach, pairRank, if_neg other, ih]
  | case3 symbols short =>
    cases symbols with
    | nil => rfl
    | cons a tail =>
      cases tail with
      | nil => rfl
      | cons b rest => exact absurd rfl (short a b rest)

/-- Merge the pairs of the lowest rank until no rule applies. -/
def mergeLoop (symbols : List Bytes) : List Bytes :=
  match _found : t.bestRank none symbols with
  | none => symbols
  | some rank => mergeLoop (t.mergeRank rank symbols)
termination_by symbols.length
decreasing_by
  rw [bestRank_eq, Option.merge_none_left] at _found
  obtain ⟨_, a, b, adjacent, rule⟩ := Merging.lowest_spec _found
  rw [mergeRank_eq]
  exact Merging.mergeEach_length adjacent rule

def encodePlain (segment : Bytes) : List Int := (t.mergeLoop (utf8Chars (normalized segment))).flatMap t.emitSymbol

def literalTable : LiteralTable := ⟨t.specialFirstBytes, t.specialTokens⟩

def encode (text : Bytes) : Option (List Int) := t.literalTable.scan t.encodePlain [] text

/-! ### Decoding -/

/-- The loop of `decode`, with `out` and `pending_bytes`. -/
def decodeLoop (out pendingBytes : Bytes) : List Int → Bytes
  | [] => out ++ pendingBytes
  | id :: ids =>
    if id < 0 ∨ t.idToToken.length ≤ id.toNat then decodeLoop out pendingBytes ids
    else if t.specialIds.contains id then decodeLoop out pendingBytes ids
    else match t.byteTokenValue.lookup id with
      | some b => decodeLoop out (pendingBytes ++ [b]) ids
      | none => decodeLoop (out ++ pendingBytes ++ spaced (t.idToToken.getD id.toNat [])) [] ids

def decode (ids : List Int) : Bytes := t.decodeLoop [] [] ids

/-- The bytes of one token. -/
def decodeId (id : Int) : Bytes :=
  if id < 0 ∨ t.idToToken.length ≤ id.toNat then []
  else if t.specialIds.contains id then []
  else match t.byteTokenValue.lookup id with
    | some b => [b]
    | none => spaced (t.idToToken.getD id.toNat [])

theorem decodeLoop_eq (out pendingBytes : Bytes) (ids : List Int) :
    t.decodeLoop out pendingBytes ids = out ++ pendingBytes ++ ids.flatMap t.decodeId := by
  induction ids generalizing out pendingBytes with
  | nil => simp [decodeLoop]
  | cons id ids ih =>
    unfold decodeLoop
    rw [List.flatMap_cons, decodeId]
    split
    · rw [ih, List.nil_append]
    split
    · rw [ih, List.nil_append]
    split
    · rw [ih]
      simp
    · rw [ih]
      simp

/-- Byte tokens fuse with their neighbours: the text is that of the tokens one by one. -/
theorem decode_eq (ids : List Int) : t.decode ids = ids.flatMap t.decodeId := by
  rw [decode, decodeLoop_eq]
  rfl

/-! ### Loading -/

/-- The tables `from_blob` fills. The byte tokens and the unknown token are looked up before the added tokens. -/
def assemble (vocab : List (Bytes × Int)) (keys : List Bytes) (unkToken : Option Bytes) (added : List AddedToken) :
    SpmBpeTokenizer :=
  let vocabIds := vocab.foldl emplace ∅
  let tokenToId := (added.map fun a => (a.content, a.id)).foldl assign vocabIds
  let maxId := (vocab.map (·.2) ++ added.map (·.id)).foldl max (-1)
  { tokenToId
    idToToken := BpeTokenizer.tokenTable (maxId + 1).toNat (BpeTokenizer.entriesOf tokenToId)
    mergeRanks := rankMerges keys
    byteFallback := fun b => (vocabIds.lookup (byteTokenName b)).getD (-1)
    byteTokenValue := ((List.range 256).filterMap fun b =>
      (vocabIds.lookup (byteTokenName (UInt8.ofNat b))).map (·, UInt8.ofNat b)).reverse
    unkId := (unkToken.bind vocabIds.lookup).getD (-1)
    -- the `special` flag only governs decode-skipping
    specialIds := (added.filter (·.special)).map (·.id)
    specialTokens := longestFirst (added.map fun a => (a.content, a.id))
    specialFirstBytes := added.filterMap fun a => a.content.head? }

def mergeEntry : Json → Except Exn Bytes
  | .str key => .ok key
  | .arr [l, r] => do return mergeKey (← l.getString) (← r.getString)
  | _ => .error (.runtime "spm: unexpected merges entry shape")

section
variable (parse : Bytes → Option Json)

def parsed (blob : Bytes) : Except Exn Json :=
  match parse blob with
  | some j => .ok j
  | none => .error (.runtime "spm: tokenizer.json is not valid JSON")

/-- The `model` subtree, which must be a BPE's. -/
def spmModel (j : Json) : Except Exn Json :=
  match j.find? "model" with
  | none => .error (.runtime "spm: only SentencePiece-style BPE tokenizers are supported")
  | some model => do
    let type ← model.value Json.getString "type" []
    if type = .ofAscii "BPE" then .ok model
    else .error (.runtime "spm: only SentencePiece-style BPE tokenizers are supported")

def vocabEntries (model : Json) : Except Exn (List (Bytes × Int)) :=
  match model.find? "vocab" with
  | some (.obj vocab) => vocab.mapM BpeTokenizer.vocabEntry
  | _ => .error (.runtime "spm: model.vocab missing")

def mergeKeys (model : Json) : Except Exn (List Bytes) :=
  match model.find? "merges" with
  | some (.arr merges) => merges.mapM mergeEntry
  | _ => .error (.runtime "spm: model.merges missing")

def unkToken (model : Json) : Option Bytes :=
  match model.find? "unk_token" with
  | some (.str s) => some s
  | _ => none

def fromBlob (blob : Bytes) : Except Exn SpmBpeTokenizer := do
  let j ← parsed parse blob
  let model ← spmModel j
  let vocab ← vocabEntries model
  let keys ← mergeKeys model
  let added ← BpeTokenizer.addedTokens j
  -- a negative id would index the table from below
  if (vocab.map (·.2) ++ added.map (·.id)).any (· < 0) then .error .undefined
  else .ok (assemble vocab keys (unkToken model) added)

/-- A tokenizer `from_blob` returns is assembled from what the stages read. -/
theorem fromBlob_ok {parse : Bytes → Option Json} {t : SpmBpeTokenizer} {blob : Bytes}
    (built : fromBlob parse blob = .ok t) :
    ∃ (vocab : List (Bytes × Int)) (keys : List Bytes) (unk : Option Bytes) (added : List AddedToken),
      t = assemble vocab keys unk added ∧ ∀ id ∈ vocab.map (·.2) ++ added.map (·.id), 0 ≤ id := by
  unfold fromBlob at built
  obtain ⟨j, _, built⟩ := bind_ok built
  obtain ⟨model, _, built⟩ := bind_ok built
  obtain ⟨vocab, _, built⟩ := bind_ok built
  obtain ⟨keys, _, built⟩ := bind_ok built
  obtain ⟨added, _, built⟩ := bind_ok built
  split at built
  · cases built
  · rename_i natural
    refine ⟨vocab, keys, unkToken model, added, (Except.ok.inj built).symm, fun id member => ?_⟩
    simp only [List.any_eq_true, decide_eq_true_eq, not_exists, not_and, not_lt] at natural
    exact natural id member

end

end SpmBpeTokenizer

end Mlxforge
