import Mlxforge.Lib.Regex
import Mlxforge.Tokenizer.BpeRoundTrip
import Mlxforge.Tokenizer.UnicodeRanges

/-!
The pre-tokenizer's pattern as a regular expression, and that `match_piece` finds what backtracking finds.
-/

namespace Mlxforge

open Regex

/-- A letter, in either case. -/
def caseless (want : Char) (c : Nat) : Bool := asciiLower c == want.toNat

/-- An apostrophe and the letters. -/
def contractionWord (letters : List Char) : Regex Nat := word ((· == 0x27) :: letters.map caseless)

/-- `(?i:'s|'t|'re|'ve|'m|'ll|'d)` -/
def contractionRegex : Regex Nat :=
  alt (contractionWord ['s']) <| alt (contractionWord ['t']) <| alt (contractionWord ['r', 'e']) <|
    alt (contractionWord ['v', 'e']) <| alt (contractionWord ['m']) <| alt (contractionWord ['l', 'l']) <|
      contractionWord ['d']

section
variable (u : UnicodeTables)

/-- `[^\r\n\p{L}\p{N}]` -/
def isLead (c : Nat) : Bool := !isNewline c && !u.isLetter c && !u.isNumber c

/-- `[^\r\n\p{L}\p{N}]?\p{L}+` -/
def letterRegex : Regex Nat := seq (opt (one (isLead u))) (plus (one u.isLetter))

/-- `\p{N}{1,cap}` -/
def digitRegex (cap : Nat) : Regex Nat := rep (one u.isNumber) 1 (some cap)

/-- ` ?[^\s\p{L}\p{N}]+[\r\n]*` -/
def symbolRegex : Regex Nat := seq (opt (one (· == 0x20))) (seq (plus (one (isSymbol u))) (star (one isNewline)))

/-- `\s*[\r\n]+|\s+(?!\S)|\s+` -/
def whitespaceRegex : Regex Nat :=
  alt (seq (star (one u.isWhitespace)) (plus (one isNewline))) <|
    alt (seq (plus (one u.isWhitespace)) (notAhead (one fun c => !u.isWhitespace c))) <|
      plus (one u.isWhitespace)

def splitRegex (cap : Nat) : Regex Nat :=
  alt contractionRegex <| alt (letterRegex u) <| alt (digitRegex u cap) <| alt (symbolRegex u) (whitespaceRegex u)

/-- The classes are disjoint; line breaks and the space are white space. -/
structure SplitClasses : Prop where
  letter_number : ∀ c, u.isLetter c = true → u.isNumber c = false
  letter_whitespace : ∀ c, u.isLetter c = true → u.isWhitespace c = false
  number_whitespace : ∀ c, u.isNumber c = true → u.isWhitespace c = false
  newline : ∀ c, isNewline c = true → u.isWhitespace c = true
  space : u.isWhitespace 0x20 = true

end

/-! ### The alternatives -/

theorem or_ite (b : Prop) [Decidable b] (n : Nat) (o : Option Nat) :
    (if b then some n else none).or o = if b then some n else o := by
  split <;> rfl

theorem first_contractionWord (letters : List Char) (c : Nat) (cp : List Nat) : (contractionWord letters).first (c :: cp) =
    if (c == 0x27 && fits (letters.map caseless) cp) = true then some (letters.length + 1) else none := by
  rw [contractionWord, first_word, List.length_cons, List.length_map]
  rfl

theorem first_contractionRegex (c : Nat) (cp : List Nat) :
    contractionRegex.first (c :: cp) = if c == 0x27 then contraction cp else none := by
  simp only [contractionRegex, first_alt, first_contractionWord, or_ite]
  cases c == 0x27 with
  | false => simp
  | true =>
    match cp with
    | [] => rfl
    | [x] => simp [contraction, fits, caseless]
    | x :: y :: rest => simp [contraction, fits, caseless]

section
variable {u : UnicodeTables}

theorem first_letterRegex (c : Nat) (cp : List Nat) :
    (letterRegex u).first (c :: cp) = letterRun u c cp := by
  have shy : ∀ c rest, isLead u c = true → (plus (one u.isLetter)).first (c :: rest) = none := by
    intro c rest lead
    have other : ¬u.isLetter c = true := by
      simp only [isLead, Bool.and_eq_true, Bool.not_eq_true'] at lead
      simp [lead.1.2]
    rw [first_plus, List.takeWhile_cons_of_neg other, if_pos rfl]
  rw [letterRegex, first_opt_seq shy, first_plus, apply_ite (Option.map _)]
  rfl

theorem first_digitRegex {cap : Nat} (pos : 0 < cap) (c : Nat) (cp : List Nat) :
    (digitRegex u cap).first (c :: cp) = digitRun u cap c cp := by
  rw [digitRegex, first_rep_one (some cap) (by rintro k ⟨⟩; exact pos), digitRun, Option.getD_some]
  by_cases digit : u.isNumber c = true
  · rw [if_pos digit, if_neg]
    rw [List.takeWhile_cons_of_pos digit]
    exact List.cons_ne_nil _ _
  · rw [if_neg digit, List.takeWhile_cons_of_neg digit, if_pos rfl]

theorem first_symbolRegex (classes : SplitClasses u) (c : Nat) (cp : List Nat) :
    (symbolRegex u).first (c :: cp) = symbolRun u c cp := by
  have run : ∀ input, (seq (plus (one (isSymbol u))) (star (one isNewline))).first input =
      if input.takeWhile (isSymbol u) = [] then none
      else some ((input.takeWhile (isSymbol u)).length +
        ((input.drop (input.takeWhile (isSymbol u)).length).takeWhile isNewline).length) :=
    fun input => first_plus_seq fun input => first_star
  have shy : ∀ c rest, (c == 0x20) = true →
      (seq (plus (one (isSymbol u))) (star (one isNewline))).first (c :: rest) = none := by
    intro c rest space
    obtain rfl := beq_iff_eq.mp space
    have other : ¬isSymbol u 0x20 = true := by
      simp [isSymbol, classes.space]
    rw [run, List.takeWhile_cons_of_neg other, if_pos rfl]
  rw [symbolRegex, first_opt_seq shy, run, apply_ite (Option.map _), List.drop_drop, Option.map_some, ← Nat.add_assoc]
  rfl

theorem first_whitespaceRegex (classes : SplitClasses u) (cp : List Nat) : (whitespaceRegex u).first cp =
    if cp.takeWhile u.isWhitespace = [] then none else some (whitespaceRun u cp) := by
  have lines : ((downFrom (cp.takeWhile u.isWhitespace).length).find? fun n => cp[n]?.any isNewline) =
      (List.range (cp.takeWhile u.isWhitespace).length).reverse.find? fun k =>
        isNewline ((cp.takeWhile u.isWhitespace).getD k 0) := by
    refine List.find?_congr fun k member => ?_
    obtain ⟨_, same⟩ := holds_in_takeWhile (mem_downFrom.mp member)
    rw [← same, List.getD_eq_getElem?_getD]
    cases (cp.takeWhile u.isWhitespace)[k]? <;> rfl
  rw [whitespaceRegex, first_alt, first_alt, first_star_plus classes.newline, first_plus_notAhead, first_plus, lines,
    whitespaceRun]
  by_cases none_here : cp.takeWhile u.isWhitespace = []
  · rw [if_pos none_here, if_pos none_here, if_pos none_here, none_here]
    rfl
  · rw [if_neg none_here, if_neg none_here, if_neg none_here]
    simp only [if_neg none_here]
    cases (List.range (cp.takeWhile u.isWhitespace).length).reverse.find? fun k =>
        isNewline ((cp.takeWhile u.isWhitespace).getD k 0) with
    | some lastNl => rfl
    | none =>
      rw [Option.map_none, Option.none_or]
      split_ifs <;> rfl

/-- What is neither a letter, nor a number, nor white space is a symbol: white space is all that is left. -/
theorem whitespace_left (classes : SplitClasses u) {cap c : Nat} {cp : List Nat} (letter : letterRun u c cp = none)
    (digit : digitRun u cap c cp = none) (symbol : symbolRun u c cp = none) : u.isWhitespace c = true := by
  by_contra other
  have not_letter : ¬u.isLetter c = true := by
    intro member
    have lead : (!isNewline c && !u.isLetter c && !u.isNumber c).toNat = 0 := by simp [member]
    simp [letterRun, lead, List.takeWhile_cons_of_pos member] at letter
  have not_number : ¬u.isNumber c = true := by
    intro member
    simp [digitRun, member] at digit
  have not_white : u.isWhitespace c = false := Bool.eq_false_iff.mpr other
  have is_symbol : isSymbol u c = true := by simp [isSymbol, not_white, not_letter, not_number]
  have not_space : (c == 0x20).toNat = 0 := by
    cases space : c == 0x20 with
    | false => rfl
    | true =>
      rw [beq_iff_eq.mp space] at other
      exact absurd classes.space other
  simp [symbolRun, not_space, List.takeWhile_cons_of_pos is_symbol] at symbol

theorem first_splitRegex (classes : SplitClasses u) {cap : Nat} (pos : 0 < cap) (c : Nat) (cp : List Nat) :
    (splitRegex u cap).first (c :: cp) = some (matchPiece u cap c cp) := by
  rw [splitRegex, first_alt, first_alt, first_alt, first_alt, first_contractionRegex, first_letterRegex,
    first_digitRegex pos, first_symbolRegex classes, first_whitespaceRegex classes, matchPiece]
  cases (if c == 0x27 then contraction cp else none) with
  | some n => rfl
  | none =>
    cases letter : letterRun u c cp with
    | some n => rfl
    | none =>
      cases digit : digitRun u cap c cp with
      | some n => rfl
      | none =>
        cases symbol : symbolRun u c cp with
        | some n => rfl
        | none =>
          have white := whitespace_left classes letter digit symbol
          rw [if_neg (by rw [List.takeWhile_cons_of_pos white]; exact List.cons_ne_nil _ _)]
          rfl

end

/-- At every position `match_piece` takes what the pattern matches, and the pieces make up the input. Any two classes
of letters and numbers will do that are apart from each other and from the white space of the table. -/
theorem matchPiece_regex (letter number : Nat → Bool) (letter_number : ∀ c, letter c = true → number c = false)
    (letter_whitespace : ∀ c, letter c = true → Unicode.isWhitespace c = false)
    (number_whitespace : ∀ c, number c = true → Unicode.isWhitespace c = false) :
    (∀ (cap : Nat) (_ : 0 < cap) (cps : List Nat) (p : Nat) (inside : p < cps.length),
      (splitRegex ⟨letter, number, Unicode.isWhitespace⟩ cap).first (cps.drop p) =
        some (matchPiece ⟨letter, number, Unicode.isWhitespace⟩ cap cps[p] (cps.drop (p + 1)))) ∧
    ∀ (t : BpeTokenizer) (cp : List Codepoint),
      (t.pieces ⟨letter, number, Unicode.isWhitespace⟩ cp).flatten = cp.flatMap (·.bytes) := by
  have classes : SplitClasses ⟨letter, number, Unicode.isWhitespace⟩ :=
    ⟨letter_number, letter_whitespace, number_whitespace, fun _ => Unicode.isWhitespace_newline, Unicode.isWhitespace_space⟩
  constructor
  · intro cap pos cps p inside
    rw [List.drop_eq_getElem_cons inside]
    exact first_splitRegex classes pos _ _
  · exact fun t cp => BpeTokenizer.pieces_flatten cp

/-- The classes of the tables. -/
def unicodeTables : UnicodeTables := ⟨Unicode.isLetter, Unicode.isNumber, Unicode.isWhitespace⟩

theorem matchPiece_unicodeTables :
    (splitRegex unicodeTables 3).first (([0x20, 0x0A, 0x31, 0x32] : List Nat).drop 1) =
      some (matchPiece unicodeTables 3 0x0A [0x31, 0x32]) :=
  (matchPiece_regex Unicode.isLetter Unicode.isNumber Unicode.isLetter_number Unicode.isLetter_whitespace
    Unicode.isNumber_whitespace).1 3 (by decide) [0x20, 0x0A, 0x31, 0x32] 1 (by decide)

end Mlxforge
