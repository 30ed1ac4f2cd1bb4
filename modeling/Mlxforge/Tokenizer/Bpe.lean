import Mathlib.Data.List.AList
import Mlxforge.Lib.Utf8

/-!
The byte-level BPE tokenizer: literals of added tokens are split out, the text between them is cut into pieces, and
each piece is mapped to the byte alphabet and merged.
-/

namespace Mlxforge

/-! ### Codepoints -/

/-- `append_utf8` to an empty string. -/
def appendUtf8 (cp : Nat) : Bytes :=
  if cp < 0x80 then [UInt8.ofNat cp]
  else if cp < 0x800 then [UInt8.ofNat (0xC0 ||| (cp >>> 6)), UInt8.ofNat (0x80 ||| (cp &&& 0x3F))]
  else if cp < 0x10000 then
    [UInt8.ofNat (0xE0 ||| (cp >>> 12)), UInt8.ofNat (0x80 ||| ((cp >>> 6) &&& 0x3F)),
      UInt8.ofNat (0x80 ||| (cp &&& 0x3F))]
  else
    [UInt8.ofNat (0xF0 ||| (cp >>> 18)), UInt8.ofNat (0x80 ||| ((cp >>> 12) &&& 0x3F)),
      UInt8.ofNat (0x80 ||| ((cp >>> 6) &&& 0x3F)), UInt8.ofNat (0x80 ||| (cp &&& 0x3F))]

/-- A codepoint with the bytes between its offset and the next one's. -/
structure Codepoint where
  value : Nat
  bytes : Bytes
  deriving DecidableEq

/-- The low bits of a byte, shifted. -/
def bits (b : UInt8) (mask shift : Nat) : Nat := (b.toNat &&& mask) <<< shift

def decodeUtf8 : Bytes → List Codepoint
  | [] => []
  | c :: rest =>
    -- invalid lead or truncated: fall back to one raw byte
    let raw := ⟨c.toNat, [c]⟩ :: decodeUtf8 rest
    if c.toNat < 0x80 then raw
    else if c.toNat >>> 5 = 0x6 then
      match rest with
      | b1 :: rest => ⟨bits c 0x1F 6 ||| bits b1 0x3F 0, [c, b1]⟩ :: decodeUtf8 rest
      | _ => raw
    else if c.toNat >>> 4 = 0xE then
      match rest with
      | b1 :: b2 :: rest =>
        ⟨bits c 0x0F 12 ||| bits b1 0x3F 6 ||| bits b2 0x3F 0, [c, b1, b2]⟩ :: decodeUtf8 rest
      | _ => raw
    else if c.toNat >>> 3 = 0x1E then
      match rest with
      | b1 :: b2 :: b3 :: rest =>
        ⟨bits c 0x07 18 ||| bits b1 0x3F 12 ||| bits b2 0x3F 6 ||| bits b3 0x3F 0, [c, b1, b2, b3]⟩ ::
          decodeUtf8 rest
      | _ => raw
    else raw

/-! ### The byte alphabet -/

def printable (b : Nat) : Bool :=
  (0x21 ≤ b && b ≤ 0x7E) || (0xA1 ≤ b && b ≤ 0xAC) || (0xAE ≤ b && b ≤ 0xFF)

/-- The codepoint of each byte; `n` unprintable bytes have been numbered so far. -/
def byteCodepoints : List Nat :=
  ((List.range 256).foldl (fun (cps, n) b =>
    if printable b then (cps ++ [b], n) else (cps ++ [256 + n], n + 1)) ([], 0)).1

def toUni (b : UInt8) : Bytes := appendUtf8 (byteCodepoints.getD b.toNat 0)

/-- `from_uni_dense` and `from_uni` together. -/
def fromUni (cp : Nat) : Option UInt8 := (byteCodepoints.idxOf? cp).map UInt8.ofNat

/-! ### Pieces -/

/-- The tables behind `is_letter`, `is_number` and `is_whitespace`. -/
structure UnicodeTables where
  isLetter : Nat → Bool
  isNumber : Nat → Bool
  isWhitespace : Nat → Bool

def isNewline (c : Nat) : Bool := c == 0x0D || c == 0x0A

def asciiLower (c : Nat) : Nat := if 0x41 ≤ c ∧ c ≤ 0x5A then c + 32 else c

section
variable (u : UnicodeTables)

def isSymbol (c : Nat) : Bool := !u.isWhitespace c && !u.isLetter c && !u.isNumber c

/-- `'s|'t|'re|'ve|'m|'ll|'d`, of what follows the apostrophe. -/
def contraction (rest : List Nat) : Option Nat :=
  let at_ (k : Nat) (want : Char) : Bool := rest[k]?.map asciiLower == some want.toNat
  if at_ 0 's' then some 2
  else if at_ 0 't' then some 2
  else if at_ 0 'r' && at_ 1 'e' then some 3
  else if at_ 0 'v' && at_ 1 'e' then some 3
  else if at_ 0 'm' then some 2
  else if at_ 0 'l' && at_ 1 'l' then some 3
  else if at_ 0 'd' then some 2
  else none

/-- `[^\r\n\p{L}\p{N}]?\p{L}+` -/
def letterRun (c : Nat) (cp : List Nat) : Option Nat :=
  let q := (!isNewline c && !u.isLetter c && !u.isNumber c).toNat
  let letters := ((c :: cp).drop q).takeWhile u.isLetter
  if letters = [] then none else some (q + letters.length)

/-- `\p{N}{1,digit_run_max}` -/
def digitRun (digitRunMax : Nat) (c : Nat) (cp : List Nat) : Option Nat :=
  if u.isNumber c then some (min digitRunMax ((c :: cp).takeWhile u.isNumber).length) else none

/-- ` ?[^\s\p{L}\p{N}]+[\r\n]*` -/
def symbolRun (c : Nat) (cp : List Nat) : Option Nat :=
  let q := (c == 0x20).toNat
  let symbols := ((c :: cp).drop q).takeWhile (isSymbol u)
  if symbols = [] then none
  else some (q + symbols.length + (((c :: cp).drop (q + symbols.length)).takeWhile isNewline).length)

/-- `\s*[\r\n]+|\s+(?!\S)|\s+`, and one codepoint where nothing matches. -/
def whitespaceRun (cp : List Nat) : Nat :=
  let ws := cp.takeWhile u.isWhitespace
  if ws = [] then 1
  else
    match (List.range ws.length).reverse.find? fun k => isNewline (ws.getD k 0) with
    | some lastNl => lastNl + 1
    | none =>
      if ws.length = cp.length then ws.length
      else if 2 ≤ ws.length then ws.length - 1  -- give back one trailing space
      else ws.length

/-- The length of the piece at the front, in codepoints: the alternatives of the split regex in order. -/
def matchPiece (digitRunMax : Nat) (c : Nat) (cp : List Nat) : Nat :=
  match (if c == 0x27 then contraction cp else none) with
  | some n => n
  | none =>
    match letterRun u c cp with
    | some n => n
    | none =>
      match digitRun u digitRunMax c cp with
      | some n => n
      | none =>
        match symbolRun u c cp with
        | some n => n
        | none => whitespaceRun u (c :: cp)

theorem contraction_bounds {rest : List Nat} {n : Nat} (h : contraction rest = some n) : 0 < n ∧ n ≤ rest.length + 1 := by
  match rest with
  | [] => cases h
  | [_] =>
    simp only [contraction] at h
    grind
  | _ :: _ :: _ =>
    simp only [contraction] at h
    grind

theorem takeWhile_drop_le (p : Nat → Bool) (cp : List Nat) (q : Nat) :
    ((cp.drop q).takeWhile p).length ≤ cp.length - q := by
  rw [← List.length_drop]
  exact (List.takeWhile_sublist p).length_le

theorem letterRun_bounds {c : Nat} {cp : List Nat} {n : Nat} (h : letterRun u c cp = some n) :
    0 < n ∧ n ≤ cp.length + 1 := by
  simp only [letterRun] at h
  split at h
  · cases h
  · rename_i found
    obtain rfl := Option.some.inj h
    have pos := List.length_pos_of_ne_nil found
    have fits := takeWhile_drop_le u.isLetter (c :: cp) (!isNewline c && !u.isLetter c && !u.isNumber c).toNat
    rw [List.length_cons] at fits
    omega

theorem digitRun_bounds {c : Nat} {cp : List Nat} {digitRunMax n : Nat} (cap : 0 < digitRunMax)
    (h : digitRun u digitRunMax c cp = some n) : 0 < n ∧ n ≤ cp.length + 1 := by
  unfold digitRun at h
  split at h
  · rename_i digit
    obtain rfl := Option.some.inj h
    have fits := takeWhile_drop_le u.isNumber cp 0
    rw [List.takeWhile_cons_of_pos digit, List.length_cons]
    rw [List.drop_zero] at fits
    omega
  · cases h

theorem symbolRun_bounds {c : Nat} {cp : List Nat} {n : Nat} (h : symbolRun u c cp = some n) :
    0 < n ∧ n ≤ cp.length + 1 := by
  simp only [symbolRun] at h
  split at h
  · cases h
  · rename_i found
    obtain rfl := Option.some.inj h
    have pos := List.length_pos_of_ne_nil found
    have fits := takeWhile_drop_le (isSymbol u) (c :: cp) (c == 0x20).toNat
    have newlines := takeWhile_drop_le isNewline (c :: cp)
      ((c == 0x20).toNat + (((c :: cp).drop (c == 0x20).toNat).takeWhile (isSymbol u)).length)
    rw [List.length_cons] at fits newlines
    omega

theorem whitespaceRun_bounds (c : Nat) (cp : List Nat) :
    0 < whitespaceRun u (c :: cp) ∧ whitespaceRun u (c :: cp) ≤ cp.length + 1 := by
  have fits := takeWhile_drop_le u.isWhitespace (c :: cp) 0
  rw [List.drop_zero, List.length_cons] at fits
  simp only [whitespaceRun]
  split
  · omega
  · rename_i found
    have pos := List.length_pos_of_ne_nil found
    split
    · rename_i k last
      have inside := List.mem_of_find?_eq_some last
      rw [List.mem_reverse, List.mem_range] at inside
      omega
    · split_ifs <;> omega

/-- A piece is never empty, and never runs past the end. -/
theorem matchPiece_bounds (c : Nat) (cp : List Nat) {digitRunMax : Nat} (cap : 0 < digitRunMax) :
    0 < matchPiece u digitRunMax c cp ∧ matchPiece u digitRunMax c cp ≤ cp.length + 1 := by
  unfold matchPiece
  split
  · rename_i n h
    split at h
    · exact contraction_bounds h
    · cases h
  split
  · exact letterRun_bounds u ‹_›
  split
  · exact digitRun_bounds u cap ‹_›
  split
  · exact symbolRun_bounds u ‹_›
  · exact whitespaceRun_bounds u c cp

end

/-! ### The tokenizer -/

structure BpeTokenizer where
  digitRunMax : Nat := 1
  digitRunMax_pos : 0 < digitRunMax := by decide
  tokenToId : AList fun _ : Bytes => Int := ∅
  idToToken : List Bytes := []
  /-- The merge of `a` and `b` is listed under `a`, a space and `b`. -/
  mergeRanks : AList fun _ : Bytes => Nat := ∅
  specialIds : List Int := []
  /-- The literals of the added tokens, longest first. -/
  specialTokens : List (Bytes × Int) := []
  specialFirstBytes : List UInt8 := []

def mergeKey (a b : Bytes) : Bytes := a ++ 0x20 :: b

/-- The number of bytes a lead byte announces. -/
def leadLength (c : UInt8) : Nat := if c ≥ 0xF0 then 4 else if c ≥ 0xE0 then 3 else if c ≥ 0xC0 then 2 else 1

theorem leadLength_pos (c : UInt8) : 0 < leadLength c := by
  unfold leadLength
  split_ifs <;> omega

def splitSymbols (piece : Bytes) : List Bytes :=
  match piece with
  | [] => []
  | c :: rest => (c :: rest).take (leadLength c) :: splitSymbols ((c :: rest).drop (leadLength c))
termination_by piece.length
decreasing_by
  have := leadLength_pos c
  simp only [List.length_drop, List.length_cons]
  omega

/-- One left-to-right pass that merges every occurrence of the pair. -/
def mergePair (a b : Bytes) : List Bytes → List Bytes
  | x :: y :: rest => if x = a ∧ y = b then (a ++ b) :: mergePair a b rest else x :: mergePair a b (y :: rest)
  | symbols => symbols

namespace BpeTokenizer

variable (t : BpeTokenizer)

/-- The first adjacent pair of the lowest rank, `best` being the one found so far. -/
def bestPair (best : Option (Nat × Bytes × Bytes)) : List Bytes → Option (Nat × Bytes × Bytes)
  | a :: b :: rest =>
    let best := match t.mergeRanks.lookup (mergeKey a b) with
      | some rank => if best.all fun p => rank < p.1 then some (rank, a, b) else best
      | none => best
    bestPair best (b :: rest)
  | _ => best

variable {t}

/-- The pair found is adjacent somewhere, and a rule. -/
theorem bestPair_spec {best : Option (Nat × Bytes × Bytes)} {symbols : List Bytes} {rank : Nat} {a b : Bytes}
    (found : t.bestPair best symbols = some (rank, a, b)) :
    best = some (rank, a, b) ∨ ([a, b] <:+: symbols ∧ t.mergeRanks.lookup (mergeKey a b) = some rank) := by
  induction symbols generalizing best with
  | nil => exact .inl found
  | cons x rest ih =>
    cases rest with
    | nil => exact .inl found
    | cons y rest =>
      rw [bestPair] at found
      obtain here | ⟨adjacent, rule⟩ := ih found
      · split at here
        · rename_i r rule
          split at here
          · obtain ⟨rfl, rfl, rfl⟩ : r = rank ∧ x = a ∧ y = b := by simpa using here
            exact .inr ⟨⟨[], rest, rfl⟩, rule⟩
          · exact .inl here
        · exact .inl here
      · exact .inr ⟨adjacent.trans (List.suffix_cons x _).isInfix, rule⟩

theorem mergePair_length_le (a b : Bytes) (symbols : List Bytes) : (mergePair a b symbols).length ≤ symbols.length := by
  fun_induction mergePair a b symbols with
  | case1 _ _ rest _ ih => simp only [List.length_cons]; omega
  | case2 x y rest _ ih => simp only [List.length_cons] at ih ⊢; omega
  | case3 => exact le_rfl

theorem mergePair_length_lt {a b : Bytes} {symbols : List Bytes} (adjacent : [a, b] <:+: symbols) :
    (mergePair a b symbols).length < symbols.length := by
  fun_induction mergePair a b symbols with
  | case1 _ _ rest _ _ =>
    have := mergePair_length_le a b rest
    simp only [List.length_cons]
    omega
  | case2 x y rest differs ih =>
    rcases List.infix_cons_iff.mp adjacent with front | inside
    · obtain ⟨rfl, rfl⟩ : a = x ∧ b = y := by simpa using front
      exact absurd ⟨rfl, rfl⟩ differs
    · have := ih inside
      simp only [List.length_cons] at this ⊢
      omega
  | case3 symbols short =>
    obtain ⟨l, r, rfl⟩ := adjacent
    cases l with
    | nil => exact absurd rfl (short a b r)
    | cons x l => cases l <;> simp at short

variable (t)

/-- Merge the lowest-ranked pair until no rule applies. -/
def mergeLoop (symbols : List Bytes) : List Bytes :=
  match _found : t.bestPair none symbols with
  | none => symbols
  | some (_, a, b) => mergeLoop (mergePair a b symbols)
termination_by symbols.length
decreasing_by
  obtain none_some | ⟨adjacent, _⟩ := bestPair_spec _found
  · cases none_some
  · exact mergePair_length_lt adjacent

/-- The ids of one piece, given in the byte alphabet. -/
def bpePiece (piece : Bytes) : List Int :=
  match t.tokenToId.lookup piece with
  | some id => [id]
  | none => (t.mergeLoop (splitSymbols piece)).filterMap t.tokenToId.lookup

variable (u : UnicodeTables)

def pieceLength (c : Codepoint) (rest : List Codepoint) : Nat :=
  matchPiece u t.digitRunMax c.value (rest.map (·.value))

/-- The pieces of decoded text, each as the bytes it covers. -/
def pieces (cp : List Codepoint) : List Bytes :=
  match cp with
  | [] => []
  | c :: rest =>
    ((c :: rest).take (t.pieceLength u c rest)).flatMap (·.bytes) :: pieces ((c :: rest).drop (t.pieceLength u c rest))
termination_by cp.length
decreasing_by
  have pos : 0 < t.pieceLength u c rest := (matchPiece_bounds u c.value _ t.digitRunMax_pos).1
  simp only [List.length_drop, List.length_cons]
  omega

def encodePlain (segment : Bytes) : List Int :=
  (t.pieces u (decodeUtf8 segment)).flatMap fun piece => t.bpePiece (piece.flatMap toUni)

/-- The longest literal at the front. -/
def literalAt (rest : Bytes) : Option (Bytes × Int) :=
  if rest.head?.any t.specialFirstBytes.contains then t.specialTokens.find? fun p => p.1.isPrefixOf rest else none

/-- `run` is the text since the last literal. There is no result where an empty literal matches over and over. -/
def encodeLoop (run rest : Bytes) : Option (List Int) :=
  match rest with
  | [] => some (t.encodePlain u run)
  | c :: rest =>
    match t.literalAt (c :: rest) with
    | none => encodeLoop (run ++ [c]) rest
    | some (lit, id) =>
      if lit = [] then none
      else do
        let ids ← encodeLoop [] ((c :: rest).drop lit.length)
        return t.encodePlain u run ++ id :: ids
termination_by rest.length
decreasing_by
  · simp
  · have := List.length_pos_of_ne_nil ‹_›
    simp only [List.length_drop, List.length_cons]
    omega

def encode (text : Bytes) : Option (List Int) := t.encodeLoop u [] text

/-- The bytes an alphabet string stands for; other codepoints are dropped. -/
def tokenBytes (tok : Bytes) : Bytes := (decodeUtf8 tok).filterMap fun c => fromUni c.value

def decodeId (id : Int) : Bytes :=
  if id < 0 ∨ (t.idToToken.length : Int) ≤ id then []
  else if t.specialIds.contains id then []
  else tokenBytes (t.idToToken.getD id.toNat [])

def decode (ids : List Int) : Bytes := ids.flatMap t.decodeId

end BpeTokenizer

end Mlxforge
