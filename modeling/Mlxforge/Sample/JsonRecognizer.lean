import Mlxforge.Sample.JsonReading

/-!
The automaton recognises JSON: what it still demands of the text is written down for every state, and one byte takes a
state's demand to the next state's.
-/

namespace Mlxforge

open Ascii Language JsonText
open scoped Computability

namespace JsonGrammar

/-- Where the automaton may be, inside its stack of containers. -/
def Fits (g : JsonGrammar) : Prop :=
  match g.expect with
  | .value => g.readingKey = false
  | .arrayValueOrEnd => g.readingKey = false ∧ g.stack.head? = some .array
  | .objectKeyOrEnd | .objectKey =>
    g.stack.head? = some .object ∧
      if g.readingKey then g.scalar = .string ∨ g.scalar = .stringEsc ∨ g.scalar = .stringU else g.scalar = .none
  | .objectColon | .objectNext => g.readingKey = false ∧ g.stack.head? = some .object ∧ g.scalar = .none
  | .arrayNext => g.readingKey = false ∧ g.stack.head? = some .array ∧ g.scalar = .none
  | .finish => g.readingKey = false ∧ g.stack = [] ∧ g.scalar = .none

/-- A state that the grammar of any value can be in. -/
structure Plain (g : JsonGrammar) : Prop where
  free : g.schema = false
  pending : g.pendingType = .free
  float : g.numIntOnly = false
  fits : g.Fits
  lit : g.scalar = .lit → g.litPos < g.lit.length
  unicode : g.scalar = .stringU → 1 ≤ g.uLeft

variable (g : JsonGrammar)

/-- What is owed with no scalar open, after the whitespace. -/
def tokens : Language UInt8 :=
  match g.expect with
  | .value => value g.allowWs * after g.allowWs g.stack
  | .arrayValueOrEnd =>
    word [closeBracket] * after g.allowWs g.stack.tail + value g.allowWs * after g.allowWs g.stack
  | .objectKeyOrEnd =>
    word [closeBrace] * after g.allowWs g.stack.tail +
      JsonText.string * (ws g.allowWs * colonValue g.allowWs (after g.allowWs g.stack))
  | .objectKey => JsonText.string * (ws g.allowWs * colonValue g.allowWs (after g.allowWs g.stack))
  | .objectColon => colonValue g.allowWs (after g.allowWs g.stack)
  | .objectNext | .arrayNext | .finish => next g.allowWs g.stack

/-- What is owed after a closed string. -/
def closed : Language UInt8 :=
  if g.readingKey then ws g.allowWs * colonValue g.allowWs (after g.allowWs g.stack) else after g.allowWs g.stack

def closing : Language UInt8 := word [quote] * g.closed

/-- The texts that make the output a document from here on. -/
def owed : Language UInt8 :=
  match g.scalar with
  | .none => ws g.allowWs * g.tokens
  | .string => chars * g.closing
  | .stringEsc => escaped * (chars * g.closing)
  | .stringU => symbols (isHex ·) ^ g.uLeft.toNat * (chars * g.closing)
  | .number => numberRest g.num * after g.allowWs g.stack
  | .lit => word (g.lit.drop g.litPos) * after g.allowWs g.stack

/-- One byte against a demand: it is taken exactly when some text of the demand starts with it, and what is owed after
it is what those texts go on with. -/
def Meets (b : UInt8) (demand : Language UInt8) (r : Bool × JsonGrammar) : Prop :=
  (∀ t, b :: t ∈ demand ↔ r.1 = true ∧ t ∈ r.2.owed) ∧ (r.1 = true → r.2.Plain)

variable {g} {b : UInt8} {t : Bytes}

theorem owed_of_scalar (h : g.scalar = .none) : g.owed = ws g.allowWs * g.tokens := by simp only [owed, h]

theorem meets_refused {demand : Language UInt8} (h : ∀ t, b :: t ∉ demand) : Meets b demand (false, g) :=
  ⟨fun t => by simp [h t], fun h => nomatch h⟩

theorem meets_taken {demand : Language UInt8} {next : JsonGrammar} (h : ∀ t, b :: t ∈ demand ↔ t ∈ next.owed)
    (plain : next.Plain) : Meets b demand (true, next) :=
  ⟨fun t => by simp [h t], fun _ => plain⟩

/-! ### A value ends -/

theorem pushValueDone_nil (free : g.schema = false) (hs : g.stack = []) :
    g.pushValueDone = { g with expect := .finish } := by
  simp [pushValueDone, atRoot, free, hs]

theorem pushValueDone_cons (free : g.schema = false) {top : Container} {stack : List Container}
    (hs : g.stack = top :: stack) : g.pushValueDone =
      { g with pendingType := .free, expect := if top = .object then .objectNext else .arrayNext } := by
  simp [pushValueDone, atRoot, free, hs]

theorem pushValueDone_scalar (free : g.schema = false) (idle : g.scalar = .none) : g.pushValueDone.scalar = .none := by
  cases hs : g.stack with
  | nil => rw [pushValueDone_nil free hs, idle]
  | cons top stack => rw [pushValueDone_cons free hs, idle]

/-- Between values, where no scalar is open. -/
structure Idle (g : JsonGrammar) : Prop where
  free : g.schema = false
  pending : g.pendingType = .free
  float : g.numIntOnly = false
  key : g.readingKey = false
  idle : g.scalar = .none

theorem Idle.plain (i : g.Idle) (fits : g.Fits) : g.Plain :=
  ⟨i.free, i.pending, i.float, fits, by simp [i.idle], by simp [i.idle]⟩

theorem pushValueDone_plain (i : g.Idle) : g.pushValueDone.Plain := by
  cases hs : g.stack with
  | nil =>
    rw [pushValueDone_nil i.free hs]
    exact Idle.plain ⟨i.free, i.pending, i.float, i.key, i.idle⟩ ⟨i.key, hs, i.idle⟩
  | cons top stack =>
    have head : g.stack.head? = some top := by rw [hs, List.head?_cons]
    rw [pushValueDone_cons i.free hs]
    cases top with
    | array => exact Idle.plain ⟨i.free, rfl, i.float, i.key, i.idle⟩ ⟨i.key, head, i.idle⟩
    | object => exact Idle.plain ⟨i.free, rfl, i.float, i.key, i.idle⟩ ⟨i.key, head, i.idle⟩

theorem pushValueDone_owed (i : g.Idle) : g.pushValueDone.owed = after g.allowWs g.stack := by
  rw [after_eq]
  cases hs : g.stack with
  | nil =>
    rw [pushValueDone_nil i.free hs]
    simp only [owed, i.idle, tokens, hs]
  | cons top stack =>
    rw [pushValueDone_cons i.free hs]
    cases top with
    | array => simp only [owed, i.idle, tokens, hs, if_false, reduceCtorEq]
    | object => simp only [owed, i.idle, tokens, hs, if_true]

/-- A value ends: the containers around it owe the rest. -/
theorem meets_pushValueDone (i : g.Idle) {demand : Language UInt8}
    (h : ∀ t, b :: t ∈ demand ↔ t ∈ after g.allowWs g.stack) : Meets b demand (true, g.pushValueDone) :=
  meets_taken (fun t => by rw [h, pushValueDone_owed i]) (pushValueDone_plain i)

theorem meets_closeContainer (i : g.Idle) (nested : g.stack ≠ []) {demand : Language UInt8}
    (h : ∀ t, b :: t ∈ demand ↔ t ∈ after g.allowWs g.stack.tail) : Meets b demand (true, g.closeContainer) := by
  unfold closeContainer
  cases hs : g.stack with
  | nil => exact absurd hs nested
  | cons top stack =>
    rw [hs] at h
    exact meets_pushValueDone (g := { g with stack }) ⟨i.free, i.pending, i.float, i.key, i.idle⟩ h

/-! ### A value begins -/

/-- The first byte decides among the values. -/
theorem beginValue_meets (i : g.Idle)
    (start : g.expect = .value ∨ g.expect = .arrayValueOrEnd ∧ g.stack.head? = some .array) :
    Meets b (value g.allowWs * after g.allowWs g.stack) (g.beginValue b .free) := by
  have fits {scalar : Scalar} {num : Num} {float : Bool} {lit : Bytes} {pos : Nat} :
      { g with scalar, num, numIntOnly := float, lit, litPos := pos }.Fits := by
    rcases start with h | ⟨h, head⟩
    · simpa only [Fits, h] using i.key
    · simpa only [Fits, h] using ⟨i.key, head⟩
  have literals (lit : Bytes) (h : 1 < lit.length) : (g.startLit lit).Plain :=
    ⟨i.free, i.pending, i.float, fits, fun _ => h, nofun⟩
  have numbers (num : Num) : (g.startNumber num .free).Plain := ⟨i.free, i.pending, rfl, fits, nofun, nofun⟩
  simp only [beginValue, typeAllows, Bool.not_true, Bool.false_eq_true, if_false]
  split
  next h =>
    subst h
    refine meets_taken (fun t => ?_) ⟨i.free, i.pending, i.float, fits, nofun, nofun⟩
    simp +decide [cons_mem_value_mul, cons_mem_number_mul, cons_mem_literal_mul, owed, closing, closed, i.key]
  next notQuote =>
  split
  next h =>
    subst h
    refine meets_taken (fun t => ?_) ⟨i.free, i.pending, i.float, ⟨rfl, by simp [i.key, i.idle]⟩, by simp [i.idle],
      by simp [i.idle]⟩
    simp +decide [cons_mem_value_mul, cons_mem_number_mul, cons_mem_literal_mul, owed, tokens, i.idle, -add_eq_sup,
      emptyOrMembers_mul]
  next notBrace =>
  split
  next h =>
    subst h
    refine meets_taken (fun t => ?_) ⟨i.free, i.pending, i.float, ⟨i.key, rfl⟩, by simp [i.idle], by simp [i.idle]⟩
    simp +decide [cons_mem_value_mul, cons_mem_number_mul, cons_mem_literal_mul, owed, tokens, i.idle, -add_eq_sup,
      emptyOrElements_mul]
  next notBracket =>
  split
  next h =>
    subst h
    refine meets_taken (fun t => ?_) (literals _ (by decide))
    have rest : (Bytes.ofAscii "true").tail = Bytes.ofAscii "rue" := by decide
    simp +decide [cons_mem_value_mul, cons_mem_number_mul, cons_mem_literal_mul, owed, startLit, rest]
  next notTrue =>
  split
  next h =>
    subst h
    refine meets_taken (fun t => ?_) (literals _ (by decide))
    have rest : (Bytes.ofAscii "false").tail = Bytes.ofAscii "alse" := by decide
    simp +decide [cons_mem_value_mul, cons_mem_number_mul, cons_mem_literal_mul, owed, startLit, rest]
  next notFalse =>
  split
  next h =>
    subst h
    refine meets_taken (fun t => ?_) (literals _ (by decide))
    have rest : (Bytes.ofAscii "null").tail = Bytes.ofAscii "ull" := by decide
    simp +decide [cons_mem_value_mul, cons_mem_number_mul, cons_mem_literal_mul, owed, startLit, rest]
  next notNull =>
  split
  next h =>
    subst h
    refine meets_taken (fun t => ?_) (numbers _)
    simp +decide [cons_mem_value_mul, cons_mem_number_mul, cons_mem_literal_mul, owed, startNumber]
  next notMinus =>
  split
  next h =>
    subst h
    refine meets_taken (fun t => ?_) (numbers _)
    simp +decide [cons_mem_value_mul, cons_mem_number_mul, cons_mem_literal_mul, owed, startNumber]
  next notZero =>
  split
  next h =>
    refine meets_taken (fun t => ?_) (numbers _)
    simp [cons_mem_value_mul, cons_mem_number_mul, cons_mem_literal_mul, owed, startNumber, notQuote, notBrace, notBracket,
      notTrue, notFalse, notNull, notMinus, notZero, h]
  next notDigit =>
    refine meets_refused fun t => ?_
    simp [cons_mem_value_mul, cons_mem_number_mul, cons_mem_literal_mul, notQuote, notBrace, notBracket, notTrue, notFalse,
      notNull, notMinus, notZero, notDigit]

theorem Plain.between (p : g.Plain) (idle : g.scalar = .none) : g.Idle := by
  refine ⟨p.free, p.pending, p.float, ?_, idle⟩
  have fits := p.fits
  unfold Fits at fits
  cases h : g.expect <;> simp only [h, idle] at fits
  case value => exact fits
  case objectKeyOrEnd | objectKey =>
    by_contra key
    simp [key] at fits
  all_goals exact fits.1

/-! ### Between values -/

theorem startKey_meets (p : g.Plain) (key : g.expect = .objectKeyOrEnd ∨ g.expect = .objectKey)
    {demand : Language UInt8} (h : ∀ t, b :: t ∈ demand ↔
      t ∈ chars * (word [quote] * (ws g.allowWs * colonValue g.allowWs (after g.allowWs g.stack)))) :
    Meets b demand (true, g.startKey) := by
  refine meets_taken (fun t => ?_) ⟨p.free, p.pending, p.float, ?_, nofun, nofun⟩
  · simp [h, owed, startKey, closing, closed]
  · have fits := p.fits
    rcases key with h | h
    · simp only [Fits, h] at fits
      simpa [Fits, h, startKey] using fits.1
    · simp only [Fits, h] at fits
      simpa [Fits, h, startKey] using fits.1

theorem closeObject_eq (free : g.schema = false) : g.closeObject = (true, g.closeContainer) := by
  simp [closeObject, atRoot, free]

/-- The bytes of structure. -/
theorem structural_meets (p : g.Plain) (idle : g.scalar = .none) : Meets b g.tokens (g.structural b) := by
  have i := p.between idle
  have fits := p.fits
  have keysLeft : g.schemaKeysExhausted = false := by simp [schemaKeysExhausted, atRoot, p.free]
  unfold structural tokens
  unfold Fits at fits
  cases hx : g.expect <;> simp only [hx] at fits ⊢
  case value =>
    simp only [p.free, p.pending, Bool.false_and, Bool.false_eq_true, if_false]
    exact beginValue_meets i (.inl hx)
  case arrayValueOrEnd =>
    have nested : g.stack ≠ [] := by
      rintro h
      simp [h] at fits
    split
    next h =>
      subst h
      refine meets_closeContainer i nested fun t => ?_
      simp +decide [cons_mem_value_mul, cons_mem_number_mul, cons_mem_literal_mul, mem_add, -add_eq_sup]
    next h =>
      have first : ∀ t, b :: t ∈ word [closeBracket] * after g.allowWs g.stack.tail +
          value g.allowWs * after g.allowWs g.stack ↔ b :: t ∈ value g.allowWs * after g.allowWs g.stack := by
        simp [mem_add, h, -add_eq_sup]
      have value := beginValue_meets (b := b) i (.inr ⟨hx, fits.2⟩)
      exact ⟨fun t => (first t).trans (value.1 t), value.2⟩
  case objectKeyOrEnd =>
    have nested : g.stack ≠ [] := by
      rintro h
      simp [h] at fits
    split
    next h =>
      subst h
      rw [closeObject_eq p.free]
      refine meets_closeContainer i nested fun t => ?_
      simp +decide [cons_mem_string_mul, mem_add, -add_eq_sup]
    next notClose =>
    split
    next h =>
      subst h
      simp only [keysLeft, Bool.false_eq_true, if_false]
      refine startKey_meets p (.inl hx) fun t => ?_
      simp +decide [cons_mem_string_mul, mem_add, -add_eq_sup]
    next notQuote => exact meets_refused fun t => by simp [cons_mem_string_mul, mem_add, notClose, notQuote, -add_eq_sup]
  case objectKey =>
    split
    next h =>
      subst h
      simp only [keysLeft, Bool.false_eq_true, if_false]
      refine startKey_meets p (.inr hx) fun t => ?_
      simp [cons_mem_string_mul]
    next notQuote => exact meets_refused fun t => by simp [cons_mem_string_mul, notQuote]
  case objectColon =>
    split
    next h =>
      subst h
      refine meets_taken (fun t => ?_) (Idle.plain ⟨i.free, i.pending, i.float, i.key, i.idle⟩ i.key)
      simp [owed, tokens, idle, colonValue]
    next notColon => exact meets_refused fun t => by simp [colonValue, notColon]
  case objectNext =>
    obtain ⟨stack, hs⟩ : ∃ stack, g.stack = .object :: stack := List.head?_eq_some_iff.mp fits.2.1
    have nested : g.stack ≠ [] := by simp [hs]
    split
    next h =>
      subst h
      simp only [keysLeft, Bool.false_eq_true, if_false]
      refine meets_taken (fun t => ?_) (Idle.plain ⟨i.free, i.pending, i.float, i.key, i.idle⟩ ⟨fits.2.1, by simp [i.key, idle]⟩)
      simp +decide [hs, cons_mem_next_object, owed, tokens, idle]
    next notComma =>
    split
    next h =>
      subst h
      rw [closeObject_eq p.free]
      refine meets_closeContainer i nested fun t => ?_
      simp +decide [hs, cons_mem_next_object]
    next notClose => exact meets_refused fun t => by simp [hs, cons_mem_next_object, notComma, notClose]
  case arrayNext =>
    obtain ⟨stack, hs⟩ : ∃ stack, g.stack = .array :: stack := List.head?_eq_some_iff.mp fits.2.1
    have nested : g.stack ≠ [] := by simp [hs]
    split
    next h =>
      subst h
      refine meets_taken (fun t => ?_) (Idle.plain ⟨i.free, rfl, i.float, i.key, i.idle⟩ i.key)
      simp +decide [hs, cons_mem_next_array, owed, tokens, idle]
    next notComma =>
    split
    next h =>
      subst h
      refine meets_closeContainer i nested fun t => ?_
      simp +decide [hs, cons_mem_next_array]
    next notClose => exact meets_refused fun t => by simp [hs, cons_mem_next_array, notComma, notClose]
  case finish =>
    refine meets_refused fun t => ?_
    rw [fits.2.1]
    exact List.cons_ne_nil b t

/-- No structure is whitespace. -/
theorem structural_ws (h : isWs b = true) : (g.structural b).1 = false := by
  simp only [isWs, Bool.or_eq_true, beq_iff_eq] at h
  have begin (t : ValueType) : (g.beginValue b t).1 = false := by
    unfold beginValue
    split
    · rfl
    · rcases h with ((rfl | rfl) | rfl) | rfl <;> simp +decide
  unfold structural
  cases g.expect with
  | value =>
    dsimp only
    split
    · rfl
    · exact begin _
  | arrayValueOrEnd => rcases h with ((rfl | rfl) | rfl) | rfl <;> simp +decide [begin]
  | _ => rcases h with ((rfl | rfl) | rfl) | rfl <;> simp +decide

theorem between_meets (p : g.Plain) (idle : g.scalar = .none) : Meets b g.owed (g.between b) := by
  have step := structural_meets (b := b) p idle
  unfold between
  split
  next h =>
    refine ⟨fun t => ?_, fun _ => p⟩
    have refused : b :: t ∉ g.tokens := by simp [step.1, structural_ws h]
    rw [owed_of_scalar idle, cons_mem_ws_mul]
    simp [h, refused]
  next h =>
    refine ⟨fun t => ?_, step.2⟩
    rw [owed_of_scalar idle, cons_mem_ws_mul, ← step.1]
    simp [h]

/-! ### Inside a scalar -/

@[simp] theorem cons_mem_closing : b :: t ∈ g.closing ↔ b = quote ∧ t ∈ g.closed := by
  simp [closing]

@[simp] theorem closing_with (scalar : Scalar) (uLeft : Int) : { g with scalar, uLeft }.closing = g.closing := rfl

/-- Within a string only the kind of the next byte changes. -/
theorem Plain.inString (p : g.Plain) (left : Int) (busy : g.scalar ≠ .none) {scalar : Scalar}
    (h : scalar = .string ∨ scalar = .stringEsc ∨ scalar = .stringU) (unicode : scalar = .stringU → 1 ≤ left) :
    { g with scalar, uLeft := left }.Plain := by
  refine ⟨p.free, p.pending, p.float, ?_, ?_, unicode⟩
  · have fits := p.fits
    unfold Fits at fits ⊢
    cases hx : g.expect <;> simp only [hx, busy, and_false, if_false_right, h] at fits ⊢
    case value => exact fits
    case arrayValueOrEnd => exact fits
    case objectKeyOrEnd | objectKey => exact ⟨fits.1, by simp [fits.2.1]⟩
  · rcases h with rfl | rfl | rfl <;> exact nofun

/-- A key is read as a string inside an object. -/
theorem Plain.readingKey (p : g.Plain) (key : g.readingKey = true) : g.stack.head? = some .object ∧
    (g.scalar = .string ∨ g.scalar = .stringEsc ∨ g.scalar = .stringU) := by
  have fits := p.fits
  unfold Fits at fits
  cases hx : g.expect <;> simp only [hx, key, Bool.true_eq_false, false_and, if_true] at fits
  case objectKeyOrEnd | objectKey => exact fits

theorem closeString_meets (p : g.Plain) (h : g.scalar = .string) : Meets quote g.owed g.closeString := by
  have notRoot : { g with scalar := .none }.atRoot = false := by simp [atRoot, p.free]
  have closes (t : Bytes) : quote :: t ∈ g.owed ↔ t ∈ g.closed := by simp +decide [owed, h, cons_mem_chars_mul]
  unfold closeString
  simp only [notRoot, Bool.false_eq_true, if_false]
  split
  next key =>
    refine meets_taken (fun t => ?_) (Idle.plain ⟨p.free, p.pending, p.float, rfl, rfl⟩
      ⟨rfl, (p.readingKey key).1, rfl⟩)
    rw [closes, closed, if_pos key]
    rfl
  next key =>
    refine meets_pushValueDone (g := { g with scalar := .none })
      ⟨p.free, p.pending, p.float, Bool.eq_false_iff.mpr key, rfl⟩ fun t => ?_
    rw [closes, closed, if_neg key]

theorem feedString_meets (p : g.Plain) (h : g.scalar = .string) : Meets b g.owed (g.feedString b) := by
  have noSchemaKey : (g.readingKey && g.atRoot) = false := by simp [atRoot, p.free]
  have busy : g.scalar ≠ .none := by simp [h]
  simp only [feedString, noSchemaKey, Bool.false_eq_true, if_false]
  split
  next quoted =>
    subst quoted
    exact closeString_meets p h
  next notQuote =>
  split
  next escape =>
    subst escape
    refine meets_taken (fun t => ?_) (p.inString g.uLeft busy (.inr (.inl rfl)) nofun)
    simp +decide [owed, h, cons_mem_chars_mul]
  next notEscape =>
  split
  next control => exact meets_refused fun t => by simp [owed, h, cons_mem_chars_mul, notQuote, notEscape, control]
  next printable =>
    rw [UInt8.not_lt] at printable
    refine meets_taken (fun t => ?_) p
    simp [owed, h, cons_mem_chars_mul, notQuote, notEscape, printable]

theorem feedEscape_meets (p : g.Plain) (h : g.scalar = .stringEsc) : Meets b g.owed (g.feedEscape b) := by
  have busy : g.scalar ≠ .none := by simp [h]
  unfold feedEscape
  split
  next letter =>
    have notU : b ≠ 0x75 := by
      rintro rfl
      exact absurd letter (by decide)
    refine meets_taken (fun t => ?_) (p.inString g.uLeft busy (.inl rfl) nofun)
    simp [owed, h, cons_mem_escaped_mul, letter, notU]
  next notLetter =>
  split
  next unicode =>
    subst unicode
    refine meets_taken (fun t => ?_) (p.inString 4 busy (.inr (.inr rfl)) fun _ => by decide)
    simp [owed, h, cons_mem_escaped_mul, notLetter]
  next notUnicode => exact meets_refused fun t => by simp [owed, h, cons_mem_escaped_mul, notLetter, notUnicode]

theorem feedUnicode_meets (p : g.Plain) (h : g.scalar = .stringU) : Meets b g.owed (g.feedUnicode b) := by
  have busy : g.scalar ≠ .none := by simp [h]
  obtain ⟨left, hl⟩ : ∃ left : Nat, g.uLeft = left + 1 := ⟨(g.uLeft - 1).toNat, by have := p.unicode h; omega⟩
  have hex (t : Bytes) : b :: t ∈ g.owed ↔ isHex b = true ∧ t ∈ symbols (isHex ·) ^ left * (chars * g.closing) := by
    have count : g.uLeft.toNat = left + 1 := by omega
    simp only [owed, h, count, pow_succ', mul_assoc, cons_mem_symbols_mul]
  have fewer : g.uLeft - 1 = left := by omega
  unfold feedUnicode
  split
  next notHex => exact meets_refused fun t => by simp_all
  next isHexDigit =>
    have digit : isHex b = true := by simpa using isHexDigit
    simp only [fewer, Int.natCast_eq_zero]
    split
    next last =>
      subst last
      refine meets_taken (fun t => ?_) (p.inString 0 busy (.inl rfl) (by simp))
      rw [hex, pow_zero, one_mul]
      simp [digit, owed]
    next more =>
      refine meets_taken (fun t => ?_) (p.inString _ busy (.inr (.inr h)) fun _ => by omega)
      rw [hex]
      simp [digit, owed, h]

theorem Plain.notKey (p : g.Plain) (h : g.scalar = .lit ∨ g.scalar = .number) : g.readingKey = false := by
  by_contra key
  have := (p.readingKey (by simpa using key)).2
  rcases h with h | h <;> simp [h] at this

theorem feedLit_meets (p : g.Plain) (h : g.scalar = .lit) : Meets b g.owed (g.feedLit b) := by
  have bound := p.lit h
  have reads (t : Bytes) : b :: t ∈ g.owed ↔
      b = g.lit[g.litPos] ∧ t ∈ word (g.lit.drop (g.litPos + 1)) * after g.allowWs g.stack := by
    simp only [owed, h, List.drop_eq_getElem_cons bound, cons_mem_word_mul]
  unfold feedLit
  simp only [List.getElem?_eq_getElem bound, Option.some.injEq]
  split
  next same =>
    split
    next last =>
      refine meets_pushValueDone (g := { g with scalar := .none, litPos := g.litPos + 1 })
        ⟨p.free, p.pending, p.float, p.notKey (.inl h), rfl⟩ fun t => ?_
      rw [reads, last, List.drop_length, word_nil, one_mul]
      simp [same]
    next more =>
      have fits : { g with litPos := g.litPos + 1 }.Fits := p.fits
      refine meets_taken (fun t => ?_) ⟨p.free, p.pending, p.float, fits, fun _ => by dsimp only; omega, by simp [h]⟩
      rw [reads]
      simp [same, owed, h]
  next differs => exact meets_refused fun t => by simp [reads, Ne.symm differs]

/-- The bytes that may follow a number. -/
def Delimits (b : UInt8) : Prop := isWs b = true ∨ b = comma ∨ b = closeBrace ∨ b = closeBracket

theorem pushValueDone_expect (free : g.schema = false) : g.pushValueDone.expect = .finish ∨
    g.pushValueDone.expect = .objectNext ∨ g.pushValueDone.expect = .arrayNext := by
  cases hs : g.stack with
  | nil => simp [pushValueDone_nil free hs]
  | cons top stack => cases top <;> simp [pushValueDone_cons free hs]

theorem delimits_of_between (free : g.schema = false) (h : (g.pushValueDone.between b).1 = true) : Delimits b := by
  unfold between at h
  split at h
  next space => exact .inl space
  next =>
    refine .inr ?_
    unfold structural at h
    rcases pushValueDone_expect free with hx | hx | hx
    · simp [hx] at h
    · simp only [hx] at h
      by_contra other
      simp_all
    · simp only [hx] at h
      by_contra other
      simp_all

/-- None of them goes on with the number. -/
theorem numberContinue_delimiter (h : Delimits b) : g.numberContinue b = none := by
  have other : isDigit b = false ∧ isExp b = false ∧ b ≠ dot ∧ b ≠ plus ∧ b ≠ minus ∧ b ≠ zero ∧
      ¬(0x31 ≤ b ∧ b ≤ 0x39) := by
    simp only [Delimits, isWs, Bool.or_eq_true, beq_iff_eq] at h
    rcases h with (((rfl | rfl) | rfl) | rfl) | rfl | rfl | rfl <;> decide
  obtain ⟨digit, exp, dot, plus, minus, zero, leading⟩ := other
  unfold numberContinue
  cases g.num <;> simp only [digit, exp, dot, plus, minus, zero, leading, or_self, if_false, ite_self, Bool.false_eq_true]

theorem feedNumber_meets (p : g.Plain) (h : g.scalar = .number) : Meets b g.owed (g.feedNumber b) := by
  have i : { g with scalar := .none }.Idle := ⟨p.free, p.pending, p.float, p.notKey (.inr h), rfl⟩
  have rest := between_meets (b := b) (pushValueDone_plain i) (pushValueDone_scalar i.free i.idle)
  rw [pushValueDone_owed i] at rest
  have reads (t : Bytes) : b :: t ∈ g.owed ↔
      (∃ num, g.numberContinue b = some num ∧ t ∈ numberRest num * after g.allowWs g.stack) ∨
      (g.num.terminable = true ∧ b :: t ∈ after g.allowWs g.stack) := by
    simp only [owed, h, cons_mem_numberRest_mul g p.float]
  unfold feedNumber
  split
  next num more =>
    have fits : { g with num }.Fits := p.fits
    refine meets_taken (fun t => ?_) ⟨p.free, p.pending, p.float, fits, by simp [h], by simp [h]⟩
    have noEnd : b :: t ∉ after g.allowWs g.stack := by
      intro ends
      have := delimits_of_between (g := { g with scalar := .none }) p.free ((rest.1 t).mp ends).1
      simp [numberContinue_delimiter this] at more
    rw [reads]
    simp [more, noEnd, owed, h]
  next stop =>
    unfold finishScalarThen
    split
    next unfinished => exact meets_refused fun t => by simp_all
    next finished =>
      refine ⟨fun t => ?_, rest.2⟩
      rw [← rest.1, reads]
      simp_all

/-! ### The whole text -/

theorem feed_meets (p : g.Plain) : Meets b g.owed (g.feed b) := by
  unfold feed
  cases h : g.scalar with
  | none => exact between_meets p h
  | string => exact feedString_meets p h
  | stringEsc => exact feedEscape_meets p h
  | stringU => exact feedUnicode_meets p h
  | number => exact feedNumber_meets p h
  | lit => exact feedLit_meets p h

/-- No state is a dead end. -/
theorem owed_nonempty : ∃ x, x ∈ g.owed := by
  have colon : ∃ x, x ∈ ws g.allowWs * colonValue g.allowWs (after g.allowWs g.stack) :=
    nonempty_mul nonempty_ws (nonempty_colonValue g.stack)
  have key : ∃ x, x ∈ JsonText.string * (ws g.allowWs * colonValue g.allowWs (after g.allowWs g.stack)) :=
    nonempty_mul nonempty_string colon
  have closes : ∃ x, x ∈ chars * g.closing := by
    refine nonempty_mul nonempty_kstar (nonempty_mul nonempty_word ?_)
    unfold closed
    split
    · exact colon
    · exact nonempty_after g.stack
  unfold owed
  cases g.scalar with
  | none =>
    refine nonempty_mul nonempty_ws ?_
    unfold tokens
    cases g.expect with
    | value => exact nonempty_mul nonempty_value (nonempty_after g.stack)
    | arrayValueOrEnd => exact nonempty_left (nonempty_mul nonempty_word (nonempty_after g.stack.tail))
    | objectKeyOrEnd => exact nonempty_left (nonempty_mul nonempty_word (nonempty_after g.stack.tail))
    | objectKey => exact key
    | objectColon => exact nonempty_colonValue g.stack
    | objectNext | arrayNext | finish => exact nonempty_next g.stack
  | string => exact closes
  | stringEsc => exact nonempty_mul (nonempty_left (nonempty_symbols (a := quote) (by decide))) closes
  | stringU => exact nonempty_mul (nonempty_pow (nonempty_symbols (a := zero) (by decide)) _) closes
  | number => exact nonempty_mul (nonempty_numberRest g.num) (nonempty_after g.stack)
  | lit => exact nonempty_mul nonempty_word (nonempty_after g.stack)

theorem Plain.not_finish (p : g.Plain) (busy : g.scalar ≠ .none) : g.expect ≠ .finish := by
  intro hx
  have fits := p.fits
  simp only [Fits, hx] at fits
  exact busy fits.2.2

/-- The output may stop where nothing is owed any more. -/
theorem nil_mem_owed (p : g.Plain) : [] ∈ g.owed ↔ g.complete = true := by
  have fits := p.fits
  have goesOn (h : g.scalar ≠ .none) := p.not_finish h
  have openString : [] ∉ chars * g.closing := by simp [closing]
  unfold owed complete
  cases h : g.scalar with
  | none =>
    simp only [nil_mem_mul, nil_mem_ws, true_and]
    unfold tokens
    unfold Fits at fits
    cases hx : g.expect <;> simp only [hx, h] at fits
    case finish => simp [fits.2.1, next]
    case value => simp [nil_not_mem_value]
    case objectNext | arrayNext =>
      obtain ⟨stack, hs⟩ := List.head?_eq_some_iff.mp fits.2.1
      simp [hs, next]
    all_goals simp [JsonText.string, colonValue, nil_not_mem_value, mem_add, -add_eq_sup]
  | string | stringEsc | stringU => simp_all
  | number =>
    rw [nil_mem_numberRest_mul, nil_mem_after]
    simp [goesOn, h, and_comm]
  | lit =>
    have more : g.lit.drop g.litPos ≠ [] := List.drop_eq_nil_iff.not.mpr (Nat.not_le.mpr (p.lit h))
    simp [more, goesOn, h]

theorem accepts_iff (p : g.Plain) (s : Bytes) : g.accepts s = true ↔ ∃ t, s ++ t ∈ g.owed := by
  induction s generalizing g with
  | nil => simp [accepts, owed_nonempty]
  | cons b s ih =>
    have step := feed_meets (b := b) p
    simp only [accepts, Bool.and_eq_true, List.cons_append, step.1, exists_and_left]
    exact and_congr_right fun taken => ih (step.2 taken)

theorem complete_advance (p : g.Plain) {s : Bytes} (h : g.accepts s = true) :
    (g.advance s).complete = true ↔ s ∈ g.owed := by
  induction s generalizing g with
  | nil => exact (nil_mem_owed p).symm
  | cons b s ih =>
    have step := feed_meets (b := b) p
    simp only [accepts, Bool.and_eq_true] at h
    rw [step.1, ← ih (step.2 h.1) h.2]
    simp [h.1, advance]

theorem anyValue_plain (compact : Bool) : (anyValue.setCompact compact).Plain := ⟨rfl, rfl, rfl, rfl, nofun, nofun⟩

theorem anyValue_owed (compact : Bool) : (anyValue.setCompact compact).owed = document !compact := rfl

/-- The grammar of any value recognises JSON: it accepts just the beginnings of documents, and is complete just after
the whole of one. -/
theorem recognizes (compact : Bool) (s : Bytes) :
    ((anyValue.setCompact compact).accepts s = true ↔ ∃ t, s ++ t ∈ document !compact) ∧
      ((anyValue.setCompact compact).accepts s = true →
        (((anyValue.setCompact compact).advance s).complete = true ↔ s ∈ document !compact)) :=
  ⟨accepts_iff (anyValue_plain compact) s, complete_advance (anyValue_plain compact)⟩

end JsonGrammar

end Mlxforge
