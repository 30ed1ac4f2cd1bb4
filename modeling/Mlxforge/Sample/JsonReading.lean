import Mlxforge.Sample.JsonText

/-!
JSON texts read one byte at a time: what each part of the grammar goes on with after its first byte, and what a text
still owes for the containers that are open.
-/

namespace Mlxforge.JsonText

open Ascii Language
open scoped Computability

/-- What is left of a number. -/
def numberRest : Num → Language UInt8
  | .sign => int * (frac * exp)
  | .intZero => frac * exp
  | .intDigits => (symbols (isDigit ·))∗ * (frac * exp)
  | .fracDot => digits * exp
  | .fracDigits => (symbols (isDigit ·))∗ * exp
  | .expStart => exponent
  | .expAfterSign => digits
  | .expDigits => (symbols (isDigit ·))∗

section
variable {allowWs : Bool} {b : UInt8} {t : Bytes} {m : Language UInt8}

theorem nil_mem_ws : [] ∈ ws allowWs := by
  unfold ws
  split
  · exact nil_mem_kstar _
  · rfl

theorem cons_mem_ws_mul : b :: t ∈ ws allowWs * m ↔ (isWs b = true ∧ allowWs = true ∧ t ∈ ws allowWs * m) ∨ b :: t ∈ m := by
  cases allowWs with
  | true => simp [ws]
  | false => simp [ws]

theorem cons_mem_chars_mul : b :: t ∈ chars * m ↔
    ((0x20 ≤ b ∧ b ≠ quote ∧ b ≠ backslash) ∧ t ∈ chars * m) ∨ (b = backslash ∧ t ∈ escaped * (chars * m)) ∨ b :: t ∈ m := by
  unfold chars
  rw [mem_kstar_mul, cons_mem_add_mul, cons_mem_symbols_mul, mul_assoc (word [backslash]), cons_mem_word_mul, word_nil, one_mul]
  tauto

theorem cons_mem_escaped_mul : b :: t ∈ escaped * m ↔
    (isEscape b = true ∧ t ∈ m) ∨ (b = 0x75 ∧ t ∈ symbols (isHex ·) ^ 4 * m) := by
  unfold escaped
  rw [cons_mem_add_mul, cons_mem_symbols_mul, mul_assoc, cons_mem_word_mul, word_nil, one_mul]

theorem cons_mem_digits_mul : b :: t ∈ digits * m ↔ isDigit b = true ∧ t ∈ (symbols (isDigit ·))∗ * m := by
  rw [digits, mul_assoc, cons_mem_symbols_mul]

theorem cons_mem_exponent_mul : b :: t ∈ exponent * m ↔
    ((b = plus ∨ b = minus) ∧ t ∈ digits * m) ∨ (isDigit b = true ∧ t ∈ (symbols (isDigit ·))∗ * m) := by
  unfold exponent
  rw [mul_assoc, cons_mem_add_mul, cons_mem_add_mul, one_mul, cons_mem_word_mul, cons_mem_word_mul, word_nil, one_mul,
    cons_mem_digits_mul]
  tauto

theorem cons_mem_exp_mul : b :: t ∈ exp * m ↔ (isExp b = true ∧ t ∈ exponent * m) ∨ b :: t ∈ m := by
  unfold exp
  rw [cons_mem_add_mul, one_mul, mul_assoc, cons_mem_symbols_mul, or_comm]

theorem cons_mem_frac_mul : b :: t ∈ frac * m ↔ (b = dot ∧ t ∈ digits * m) ∨ b :: t ∈ m := by
  unfold frac
  rw [cons_mem_add_mul, one_mul, mul_assoc, cons_mem_word_mul, word_nil, one_mul, or_comm]

theorem cons_mem_int_mul : b :: t ∈ int * m ↔
    (b = zero ∧ t ∈ m) ∨ ((0x31 ≤ b ∧ b ≤ 0x39) ∧ t ∈ (symbols (isDigit ·))∗ * m) := by
  unfold int
  rw [cons_mem_add_mul, cons_mem_word_mul, word_nil, one_mul, mul_assoc, cons_mem_symbols_mul]

/-- What a number goes on with. -/
theorem cons_mem_number_mul : b :: t ∈ number * m ↔ (b = minus ∧ t ∈ numberRest .sign * m) ∨
    (b = zero ∧ t ∈ numberRest .intZero * m) ∨ ((0x31 ≤ b ∧ b ≤ 0x39) ∧ t ∈ numberRest .intDigits * m) := by
  simp only [number, numberRest, mul_assoc, cons_mem_add_mul, one_mul, cons_mem_word_mul, word_nil, cons_mem_int_mul]
  tauto

theorem cons_mem_string_mul : b :: t ∈ string * m ↔ b = quote ∧ t ∈ chars * (word [quote] * m) := by
  simp only [string, mul_assoc, cons_mem_word_mul, word_nil, one_mul]

theorem cons_mem_literal_mul : b :: t ∈ literal * m ↔ (b = 0x74 ∧ t ∈ word (Bytes.ofAscii "rue") * m) ∨
    (b = 0x66 ∧ t ∈ word (Bytes.ofAscii "alse") * m) ∨ (b = 0x6E ∧ t ∈ word (Bytes.ofAscii "ull") * m) := by
  have hTrue : Bytes.ofAscii "true" = 0x74 :: Bytes.ofAscii "rue" := by decide
  have hFalse : Bytes.ofAscii "false" = 0x66 :: Bytes.ofAscii "alse" := by decide
  have hNull : Bytes.ofAscii "null" = 0x6E :: Bytes.ofAscii "ull" := by decide
  rw [literal, hTrue, hFalse, hNull, cons_mem_add_mul, cons_mem_add_mul, cons_mem_word_mul, cons_mem_word_mul,
    cons_mem_word_mul, or_assoc]

/-- What a value goes on with. -/
theorem cons_mem_value_mul : b :: t ∈ value allowWs * m ↔
    (b = quote ∧ t ∈ chars * (word [quote] * m)) ∨ b :: t ∈ number * m ∨ b :: t ∈ literal * m ∨
    (b = openBracket ∧ t ∈ (ws allowWs + elements allowWs) * (word [closeBracket] * m)) ∨
    (b = openBrace ∧ t ∈ (ws allowWs + members allowWs) * (word [closeBrace] * m)) := by
  rw [value_eq, cons_mem_add_mul, cons_mem_add_mul, cons_mem_add_mul, cons_mem_add_mul, cons_mem_string_mul, mul_assoc,
    mul_assoc, mul_assoc, mul_assoc, cons_mem_word_mul, cons_mem_word_mul, word_nil, one_mul, one_mul, or_assoc, or_assoc,
    or_assoc]

theorem not_sign_of_isDigit (h : isDigit b = true) : b ≠ dot ∧ isExp b = false ∧ b ≠ plus ∧ b ≠ minus := by
  refine ⟨?_, ?_, ?_, ?_⟩
  · rintro rfl
    exact absurd h (by decide)
  · refine Bool.eq_false_iff.mpr fun e => ?_
    simp only [isExp, Bool.or_eq_true, beq_iff_eq] at e
    rcases e with rfl | rfl
    · exact absurd h (by decide)
    · exact absurd h (by decide)
  · rintro rfl
    exact absurd h (by decide)
  · rintro rfl
    exact absurd h (by decide)

theorem not_exp_dot : isExp dot = false := by decide

/-- The number automaton follows its language: a byte extends the number, or the number has ended before it. -/
theorem cons_mem_numberRest_mul (g : JsonGrammar) (float : g.numIntOnly = false) : b :: t ∈ numberRest g.num * m ↔
    (∃ num, g.numberContinue b = some num ∧ t ∈ numberRest num * m) ∨ (g.num.terminable = true ∧ b :: t ∈ m) := by
  unfold JsonGrammar.numberContinue
  cases g.num with
  | sign =>
    rw [numberRest, mul_assoc, cons_mem_int_mul]
    by_cases hz : b = zero
    · subst hz
      have hd : ¬(0x31 ≤ zero ∧ zero ≤ 0x39) := by decide
      simp [hd, numberRest, Num.terminable]
    · by_cases hd : 0x31 ≤ b ∧ b ≤ 0x39
      · simp [hz, hd, numberRest, Num.terminable, mul_assoc]
      · simp [hz, hd, Num.terminable]
  | intZero =>
    rw [numberRest, mul_assoc, cons_mem_frac_mul, cons_mem_exp_mul]
    by_cases hz : b = dot
    · simp [hz, float, numberRest, Num.terminable, mul_assoc, not_exp_dot]
    · by_cases he : isExp b = true
      · simp [hz, he, float, numberRest, Num.terminable]
      · simp [hz, he, float, Num.terminable]
  | intDigits =>
    rw [numberRest, mul_assoc, mul_assoc, cons_mem_kstar_symbols_mul, cons_mem_frac_mul, cons_mem_exp_mul]
    by_cases hd : isDigit b = true
    · obtain ⟨hdot, hexp, -, -⟩ := not_sign_of_isDigit hd
      simp [hd, hdot, hexp, numberRest, Num.terminable, mul_assoc]
    · by_cases hz : b = dot
      · subst hz
        simp [hd, float, numberRest, Num.terminable, mul_assoc, not_exp_dot]
      · by_cases he : isExp b = true
        · simp [hd, hz, he, float, numberRest, Num.terminable]
        · simp [hd, hz, he, float, Num.terminable]
  | fracDot =>
    rw [numberRest, mul_assoc, cons_mem_digits_mul]
    by_cases hd : isDigit b = true
    · simp [hd, numberRest, Num.terminable, mul_assoc]
    · simp [hd, Num.terminable]
  | fracDigits =>
    rw [numberRest, mul_assoc, cons_mem_kstar_symbols_mul, cons_mem_exp_mul]
    by_cases hd : isDigit b = true
    · obtain ⟨-, hexp, -, -⟩ := not_sign_of_isDigit hd
      simp [hd, hexp, numberRest, Num.terminable, mul_assoc]
    · by_cases he : isExp b = true
      · simp [hd, he, numberRest, Num.terminable]
      · simp [hd, he, Num.terminable]
  | expStart =>
    rw [numberRest, cons_mem_exponent_mul]
    by_cases hs : b = plus ∨ b = minus
    · have hd : isDigit b ≠ true := by
        rintro hd
        obtain ⟨-, -, hp, hm⟩ := not_sign_of_isDigit hd
        exact hs.elim hp hm
      simp [hs, hd, numberRest, Num.terminable]
    · by_cases hd : isDigit b = true
      · simp [hs, hd, numberRest, Num.terminable]
      · simp [hs, hd, Num.terminable]
  | expAfterSign =>
    rw [numberRest, cons_mem_digits_mul]
    by_cases hd : isDigit b = true
    · simp [hd, numberRest, Num.terminable]
    · simp [hd, Num.terminable]
  | expDigits =>
    rw [numberRest, cons_mem_kstar_symbols_mul]
    by_cases hd : isDigit b = true
    · simp [hd, numberRest, Num.terminable]
    · simp [hd, Num.terminable]

/-! ### What the text still owes -/

/-- What is owed for the containers around a finished value. -/
def after (allowWs : Bool) : List Container → Language UInt8
  | [] => ws allowWs
  | .array :: stack => ws allowWs * ((1 + word [comma] * elements allowWs) * (word [closeBracket] * after allowWs stack))
  | .object :: stack => ws allowWs * ((1 + word [comma] * members allowWs) * (word [closeBrace] * after allowWs stack))

/-- The same with no whitespace before it. -/
def next (allowWs : Bool) : List Container → Language UInt8
  | [] => 1
  | .array :: stack => (1 + word [comma] * elements allowWs) * (word [closeBracket] * after allowWs stack)
  | .object :: stack => (1 + word [comma] * members allowWs) * (word [closeBrace] * after allowWs stack)

theorem after_eq (stack : List Container) : after allowWs stack = ws allowWs * next allowWs stack := by
  cases stack with
  | nil => exact (mul_one _).symm
  | cons top stack => cases top <;> rfl

/-- What a key, or a colon, is followed by. -/
def colonValue (allowWs : Bool) (m : Language UInt8) : Language UInt8 :=
  word [colon] * (ws allowWs * (value allowWs * m))

theorem elements_mul (stack : List Container) : elements allowWs * (word [closeBracket] * after allowWs stack) =
    ws allowWs * (value allowWs * after allowWs (.array :: stack)) := by
  conv_lhs => rw [elements_eq]
  simp only [after, mul_assoc]

theorem members_mul (stack : List Container) : members allowWs * (word [closeBrace] * after allowWs stack) =
    ws allowWs * (string * (ws allowWs * colonValue allowWs (after allowWs (.object :: stack)))) := by
  conv_lhs => rw [members_eq]
  simp only [after, colonValue, mul_assoc]

theorem emptyOrElements_mul (stack : List Container) :
    (ws allowWs + elements allowWs) * (word [closeBracket] * after allowWs stack) =
      ws allowWs * (word [closeBracket] * after allowWs stack + value allowWs * after allowWs (.array :: stack)) := by
  rw [add_mul, elements_mul, ← mul_add]

theorem emptyOrMembers_mul (stack : List Container) :
    (ws allowWs + members allowWs) * (word [closeBrace] * after allowWs stack) =
      ws allowWs * (word [closeBrace] * after allowWs stack +
        string * (ws allowWs * colonValue allowWs (after allowWs (.object :: stack)))) := by
  rw [add_mul, members_mul, ← mul_add]

theorem cons_mem_next_array {stack : List Container} : b :: t ∈ next allowWs (.array :: stack) ↔
    (b = comma ∧ t ∈ ws allowWs * (value allowWs * after allowWs (.array :: stack))) ∨
      (b = closeBracket ∧ t ∈ after allowWs stack) := by
  rw [next, cons_mem_add_mul, one_mul, mul_assoc, cons_mem_word_mul, cons_mem_word_mul, word_nil, one_mul, one_mul,
    elements_mul, or_comm]

theorem cons_mem_next_object {stack : List Container} : b :: t ∈ next allowWs (.object :: stack) ↔
    (b = comma ∧ t ∈ ws allowWs * (string * (ws allowWs * colonValue allowWs (after allowWs (.object :: stack))))) ∨
      (b = closeBrace ∧ t ∈ after allowWs stack) := by
  rw [next, cons_mem_add_mul, one_mul, mul_assoc, cons_mem_word_mul, cons_mem_word_mul, word_nil, one_mul, one_mul,
    members_mul, or_comm]

theorem nil_mem_after {stack : List Container} : [] ∈ after allowWs stack ↔ stack = [] := by
  cases stack with
  | nil => simp [after, nil_mem_ws]
  | cons top stack => cases top <;> simp [after]

theorem nil_not_mem_value : [] ∉ value allowWs := by
  have lits : [] ∉ literal := by
    simp only [literal, mem_add, nil_mem_word]
    decide
  have num : [] ∉ number := by
    simp only [number, int, mem_add, nil_mem_mul, nil_mem_word, nil_mem_symbols, reduceCtorEq]
    tauto
  simp only [value_eq, string, mem_add, nil_mem_mul, nil_mem_word, reduceCtorEq, lits, num, false_and, or_false,
    not_false_iff]

theorem nil_mem_numberRest_mul {num : Num} : [] ∈ numberRest num * m ↔ num.terminable = true ∧ [] ∈ m := by
  have nilExp : [] ∈ exp := .inl rfl
  have nilFrac : [] ∈ frac := .inl rfl
  cases num <;>
    simp only [numberRest, Num.terminable, int, digits, exponent, nil_mem_mul, nilExp, nilFrac, mem_add, nil_mem_word,
      nil_mem_symbols, nil_mem_kstar, reduceCtorEq, false_and, and_false, or_self, true_and, and_self, Bool.false_eq_true]

/-! ### Every debt can be paid -/

theorem nonempty_string : ∃ x, x ∈ string := 
  nonempty_mul nonempty_word (nonempty_mul nonempty_kstar nonempty_word)

theorem nonempty_value : ∃ x, x ∈ value allowWs := nonempty_string.imp fun _ h => .scalar (.inl (.inl h))

theorem nonempty_ws : ∃ x, x ∈ ws allowWs := ⟨[], nil_mem_ws⟩

theorem nonempty_after (stack : List Container) : ∃ x, x ∈ after allowWs stack := by
  induction stack with
  | nil => exact nonempty_ws
  | cons top stack ih =>
    cases top with
    | array => exact nonempty_mul nonempty_ws (nonempty_mul (nonempty_left nonempty_one) (nonempty_mul nonempty_word ih))
    | object => exact nonempty_mul nonempty_ws (nonempty_mul (nonempty_left nonempty_one) (nonempty_mul nonempty_word ih))

theorem nonempty_next (stack : List Container) : ∃ x, x ∈ next allowWs stack := by
  cases stack with
  | nil => exact nonempty_one
  | cons top stack =>
    cases top with
    | array => exact nonempty_mul (nonempty_left nonempty_one) (nonempty_mul nonempty_word (nonempty_after stack))
    | object => exact nonempty_mul (nonempty_left nonempty_one) (nonempty_mul nonempty_word (nonempty_after stack))

theorem nonempty_numberRest (num : Num) : ∃ x, x ∈ numberRest num := by
  have nilExp : ∃ x, x ∈ exp := nonempty_left nonempty_one
  have fracExp : ∃ x, x ∈ frac * exp := nonempty_mul (nonempty_left nonempty_one) nilExp
  have someDigits : ∃ x, x ∈ digits := nonempty_mul (nonempty_symbols (a := zero) (by decide)) nonempty_kstar
  cases num with
  | sign => exact nonempty_mul (nonempty_left nonempty_word) fracExp
  | intZero => exact fracExp
  | intDigits => exact nonempty_mul nonempty_kstar fracExp
  | fracDot => exact nonempty_mul someDigits nilExp
  | fracDigits => exact nonempty_mul nonempty_kstar nilExp
  | expStart => exact nonempty_mul (nonempty_left (nonempty_left nonempty_one)) someDigits
  | expAfterSign => exact someDigits
  | expDigits => exact nonempty_kstar

theorem nonempty_colonValue (stack : List Container) : ∃ x, x ∈ colonValue allowWs (after allowWs stack) :=
  nonempty_mul nonempty_word (nonempty_mul nonempty_ws (nonempty_mul nonempty_value (nonempty_after stack)))

end

end Mlxforge.JsonText
