import Mlxforge.Json.NumberText

/-!
A reader of JSON texts, and what its steps take.
-/

namespace Mlxforge.Json

open Ascii

section
variable (float : Bytes → Option Rat)

/-- The text behind the byte. -/
def expect (c : UInt8) : Bytes → Option Bytes
  | [] => none
  | b :: s => if b = c then some s else none

/-- The text behind the word. -/
def behind (word s : Bytes) : Option Bytes := if word <+: s then some (s.drop word.length) else none

def skipWs (s : Bytes) : Bytes := s.dropWhile isWs

/-- A string behind its first quote. -/
def readChars : Nat → Bytes → Option (Bytes × Bytes)
  | 0, _ => none
  | n + 1, s =>
    if s.head? = some quote then some ([], s.tail)
    else do
      let (first, s) ← readChar s
      let (rest, s) ← readChars n s
      return (first ++ rest, s)

def readNumber (s : Bytes) : Option (Json × Bytes) :=
  let t := s.takeWhile isNumberByte
  if isNumber t then (numberValue float t).map fun v => (v, s.dropWhile isNumberByte) else none

/-- The values that are neither strings nor containers. -/
def readWord (s : Bytes) : Option (Json × Bytes) :=
  match behind (.ofAscii "null") s with
  | some s => some (.null, s)
  | none =>
    match behind (.ofAscii "true") s with
    | some s => some (.bool true, s)
    | none =>
      match behind (.ofAscii "false") s with
      | some s => some (.bool false, s)
      | none => readNumber float s

/-- What follows the item `x` of a list: a comma and the other items, or the closing byte. -/
def listRest {α : Type} (others : Bytes → Option (List α × Bytes)) (close : UInt8) (x : α) (s : Bytes) :
    Option (List α × Bytes) :=
  match expect comma s with
  | some s => (others s).map fun more => (x :: more.1, more.2)
  | none => (expect close s).map fun s => ([x], s)

mutual

def readValue : Nat → Bytes → Option (Json × Bytes)
  | 0, _ => none
  | _ + 1, [] => none
  | n + 1, b :: s =>
    if b = quote then do
      let (text, s) ← readChars n s
      return (.str text, s)
    else if b = openBracket then
      match expect closeBracket (skipWs s) with
      | some s => some (.arr [], s)
      | none => do
        let (vs, s) ← readElements n s
        return (.arr vs, s)
    else if b = openBrace then
      match expect closeBrace (skipWs s) with
      | some s => some (.obj [], s)
      | none => do
        let (ms, s) ← readMembers n s
        return (.obj (storeFields ms), s)
    else readWord float (b :: s)

/-- The elements and the bracket behind them. -/
def readElements : Nat → Bytes → Option (List Json × Bytes)
  | 0, _ => none
  | n + 1, s => do
    let (v, s) ← readValue n (skipWs s)
    listRest (readElements n) closeBracket v (skipWs s)

/-- The members and the brace behind them. -/
def readMembers : Nat → Bytes → Option (List (Bytes × Json) × Bytes)
  | 0, _ => none
  | n + 1, s => do
    let s ← expect quote (skipWs s)
    let (key, s) ← readChars n s
    let s ← expect colon (skipWs s)
    let (v, s) ← readValue n (skipWs s)
    listRest (readMembers n) closeBrace (key, v) (skipWs s)

end

/-- The value of the whole text. -/
def read (s : Bytes) : Option Json :=
  let body := (behind bom s).getD s
  match readValue float (s.length + 1) (skipWs body) with
  | some (v, rest) => if Utf8.check s && (skipWs rest).isEmpty then some v else none
  | none => none

end

/-! ### What the steps take -/

theorem expect_some {c : UInt8} {s r : Bytes} : expect c s = some r ↔ s = c :: r := by
  cases s with
  | nil => simp [expect]
  | cons b s => simp [expect]

@[simp] theorem expect_self (c : UInt8) (s : Bytes) : expect c (c :: s) = some s := if_pos rfl

theorem expect_other {b c : UInt8} (h : b ≠ c) (s : Bytes) : expect c (b :: s) = none := if_neg h

theorem behind_some {word s r : Bytes} : behind word s = some r ↔ s = word ++ r := by
  unfold behind
  constructor
  · intro h
    split at h
    next front =>
      obtain ⟨t, rfl⟩ := front
      cases h
      rw [List.drop_left]
    · cases h
  · rintro rfl
    rw [if_pos (List.prefix_append word r), List.drop_left]

theorem skipWs_split (s : Bytes) : ∃ w, Blank w ∧ s = w ++ skipWs s :=
  ⟨s.takeWhile isWs, List.all_eq_true.mp (List.all_takeWhile), (List.takeWhile_append_dropWhile).symm⟩

theorem skipWs_blank {w : Bytes} (hw : Blank w) (s : Bytes) : skipWs (w ++ s) = skipWs s :=
  List.dropWhile_append_of_pos hw

theorem skipWs_solid {b : UInt8} (solid : isWs b = false) (s : Bytes) : skipWs (b :: s) = b :: s := by
  simp [skipWs, solid]

section
variable {α : Type} {others : Bytes → Option (List α × Bytes)} {close : UInt8} {x : α}

theorem listRest_some {s r : Bytes} {xs : List α} (h : listRest others close x s = some (xs, r)) :
    (∃ s' xs', s = comma :: s' ∧ others s' = some (xs', r) ∧ xs = x :: xs') ∨ (s = close :: r ∧ xs = [x]) := by
  unfold listRest at h
  split at h
  next s' more =>
    obtain ⟨⟨xs', r'⟩, found, same⟩ := Option.map_eq_some_iff.mp h
    cases same
    exact .inl ⟨s', xs', expect_some.mp more, found, rfl⟩
  next =>
    obtain ⟨r', closed, same⟩ := Option.map_eq_some_iff.mp h
    cases same
    exact .inr ⟨expect_some.mp closed, rfl⟩

theorem listRest_comma {s r : Bytes} {xs : List α} (h : others s = some (xs, r)) :
    listRest others close x (comma :: s) = some (x :: xs, r) := by
  simp [listRest, h]

theorem listRest_close (h : close ≠ comma) (r : Bytes) : listRest others close x (close :: r) = some ([x], r) := by
  simp [listRest, expect_other h]

end

theorem codeUnit_local {s r : Bytes} {n : Nat} (h : codeUnit s = some (n, r)) :
    ∃ u, s = u ++ r ∧ ∀ r', codeUnit (u ++ r') = some (n, r') := by
  unfold codeUnit at h
  split at h
  next a b c d s =>
    simp only [Option.bind_eq_bind, Option.bind_eq_some_iff] at h
    obtain ⟨a', ha, b', hb, c', hc, d', hd, same⟩ := h
    cases same
    refine ⟨[a, b, c, d], rfl, fun r' => ?_⟩
    simp [codeUnit, ha, hb, hc, hd]
  · cases h

theorem unicodeEscape_local {s r b : Bytes} (h : unicodeEscape s = some (b, r)) :
    ∃ u, s = u ++ r ∧ ∀ r', unicodeEscape (u ++ r') = some (b, r') := by
  unfold unicodeEscape at h
  simp only [Option.bind_eq_bind, Option.bind_eq_some_iff] at h
  obtain ⟨⟨high, s⟩, hh, h⟩ := h
  obtain ⟨u, rfl, again⟩ := codeUnit_local hh
  dsimp only at h
  split at h
  next surrogate =>
    split at h
    next x y s =>
      split at h
      next mark =>
        simp only [Option.bind_eq_some_iff] at h
        obtain ⟨⟨low, s⟩, hl, h⟩ := h
        obtain ⟨v, rfl, more⟩ := codeUnit_local hl
        dsimp only at h
        split at h
        next other =>
          obtain ⟨rfl, rfl⟩ := Prod.mk.inj (Option.some.inj h)
          refine ⟨u ++ x :: y :: v, by simp, fun r' => ?_⟩
          unfold unicodeEscape
          rw [List.append_assoc, again]
          simp [surrogate, mark, more, other]
        · cases h
      · cases h
    · cases h
  next single =>
    split at h
    · cases h
    next whole =>
      obtain ⟨rfl, rfl⟩ := Prod.mk.inj (Option.some.inj h)
      refine ⟨u, rfl, fun r' => ?_⟩
      unfold unicodeEscape
      rw [again]
      simp only [Option.bind_eq_bind, Option.bind_some, if_neg single, if_neg whole]

/-- A step inside a string takes bytes and does not look at what follows; it never takes the closing quote. -/
theorem readChar_local {s r b : Bytes} (h : readChar s = some (b, r)) :
    ∃ c u, c ≠ quote ∧ s = c :: u ++ r ∧ ∀ r', readChar (c :: u ++ r') = some (b, r') := by
  unfold readChar at h
  split at h
  · cases h
  next c s =>
    split at h
    next mark =>
      subst mark
      split at h
      · cases h
      next e s =>
        split at h
        next long =>
          obtain ⟨u, rfl, again⟩ := unicodeEscape_local h
          exact ⟨backslash, e :: u, by decide, rfl, fun r' => by simp [readChar, long, again]⟩
        next short =>
          obtain ⟨x, hx, same⟩ := Option.map_eq_some_iff.mp h
          cases same
          exact ⟨backslash, [e], by decide, rfl, fun r' => by simp [readChar, short, hx]⟩
    next plain =>
      split at h
      next free =>
        cases h
        exact ⟨c, [], free.2, rfl, fun r' => (if_neg plain).trans (if_pos free)⟩
      · cases h

theorem readChars_sound {n : Nat} {s d r : Bytes} (h : readChars n s = some (d, r)) :
    ∃ t, s = t ++ quote :: r ∧ Chars t d := by
  induction n generalizing s d r with
  | zero => cases h
  | succ n ih =>
    rw [readChars] at h
    split at h
    next closed =>
      cases h
      refine ⟨[], ?_, .nil⟩
      rw [List.nil_append, List.cons_head?_tail closed]
    · simp only [Option.bind_eq_bind, Option.bind_eq_some_iff] at h
      obtain ⟨⟨first, s'⟩, step, ⟨rest, r'⟩, more, same⟩ := h
      cases same
      obtain ⟨c, u, -, rfl, again⟩ := readChar_local step
      obtain ⟨t, rfl, chars⟩ := ih more
      exact ⟨c :: u ++ t, by simp, .cons (by simpa using again []) chars⟩

theorem readChars_complete {t d : Bytes} (h : Chars t d) {n : Nat} (fuel : t.length < n) (r : Bytes) :
    readChars n (t ++ quote :: r) = some (d, r) := by
  induction h generalizing n with
  | nil =>
    cases n with
    | zero => cases fuel
    | succ n => rfl
  | @cons u t b s step _ ih =>
    cases n with
    | zero => cases fuel
    | succ n =>
      obtain ⟨c, v, other, eq, again⟩ := readChar_local step
      rw [List.append_nil] at eq
      subst eq
      have more : readChars n (t ++ quote :: r) = some (s, r) := ih (by simp at fuel; omega)
      have open_ : ¬((c :: v ++ t ++ quote :: r).head? = some quote) := by simpa using other
      rw [readChars, if_neg open_, List.append_assoc, again]
      simp only [Option.bind_eq_bind, Option.bind_some, more]
      rfl

/-! ### Words and numbers -/

variable {float : Bytes → Option Rat}

theorem readWord_sound {s r : Bytes} {v : Json} (h : readWord float s = some (v, r)) :
    ∃ t, s = t ++ r ∧ Reads float t (.value v) := by
  unfold readWord at h
  split at h
  next found =>
    obtain ⟨rfl, rfl⟩ := Prod.mk.inj (Option.some.inj h)
    exact ⟨_, behind_some.mp found, .null⟩
  split at h
  next found =>
    obtain ⟨rfl, rfl⟩ := Prod.mk.inj (Option.some.inj h)
    exact ⟨_, behind_some.mp found, .bool true⟩
  split at h
  next found =>
    obtain ⟨rfl, rfl⟩ := Prod.mk.inj (Option.some.inj h)
    exact ⟨_, behind_some.mp found, .bool false⟩
  · unfold readNumber at h
    dsimp only at h
    split at h
    next number =>
      obtain ⟨v', value, same⟩ := Option.map_eq_some_iff.mp h
      obtain ⟨rfl, rfl⟩ := Prod.mk.inj same
      exact ⟨_, List.takeWhile_append_dropWhile.symm, .number ((isNumber_iff _).mp number) value⟩
    · cases h

/-- No number goes on into `r`. -/
def Stops (r : Bytes) : Prop := ∀ b ∈ r.head?, isNumberByte b = false

theorem stops_nil : Stops [] := nofun

theorem stops_cons {b : UInt8} (h : isNumberByte b = false) (r : Bytes) : Stops (b :: r) := by
  intro c hc
  cases hc
  exact h

theorem stops_blank {w r : Bytes} (hw : Blank w) (h : Stops r) : Stops (w ++ r) := by
  cases w with
  | nil => exact h
  | cons b w =>
    have blank := hw b List.mem_cons_self
    refine stops_cons ?_ _
    simp only [isWs, Bool.or_eq_true, beq_iff_eq] at blank
    rcases blank with ((rfl | rfl) | rfl) | rfl <;> decide

theorem readNumber_complete {t r : Bytes} {v : Json} (ht : t ∈ JsonText.number) (hv : numberValue float t = some v)
    (stops : Stops r) : readNumber float (t ++ r) = some (v, r) := by
  have number := (isNumber_iff t).mpr ht
  have taken : (t ++ r).takeWhile isNumberByte = t := by
    rw [List.takeWhile_append_of_pos (numberBytes number)]
    cases r with
    | nil => exact List.append_nil t
    | cons b r => simp [stops b rfl]
  have left : (t ++ r).dropWhile isNumberByte = r := by
    have whole := List.takeWhile_append_dropWhile (p := isNumberByte) (l := t ++ r)
    rw [taken] at whole
    exact List.append_cancel_left whole
  unfold readNumber
  rw [taken, left]
  simp [number, hv]

theorem behind_other {a b : UInt8} (h : a ≠ b) (word s : Bytes) : behind (a :: word) (b :: s) = none := by
  unfold behind
  rw [if_neg]
  intro front
  exact h (List.cons_prefix_cons.mp front).1

theorem null_eq : Bytes.ofAscii "null" = 0x6E :: Bytes.ofAscii "ull" := by decide
theorem true_eq : Bytes.ofAscii "true" = 0x74 :: Bytes.ofAscii "rue" := by decide
theorem false_eq : Bytes.ofAscii "false" = 0x66 :: Bytes.ofAscii "alse" := by decide

/-- A byte that a number starts with starts nothing else. -/
theorem number_head {b : UInt8} (h : b = minus ∨ isDigit b = true) :
    isWs b = false ∧ b ≠ quote ∧ b ≠ openBracket ∧ b ≠ openBrace ∧ b ≠ 0x6E ∧ b ≠ 0x74 ∧ b ≠ 0x66 := by
  have all : ∀ n < 256, (UInt8.ofNat n = minus ∨ isDigit (UInt8.ofNat n) = true) → isWs (UInt8.ofNat n) = false ∧
      UInt8.ofNat n ≠ quote ∧ UInt8.ofNat n ≠ openBracket ∧ UInt8.ofNat n ≠ openBrace ∧ UInt8.ofNat n ≠ 0x6E ∧
      UInt8.ofNat n ≠ 0x74 ∧ UInt8.ofNat n ≠ 0x66 := by decide +kernel
  have at_ := all b.toNat b.toNat_lt
  rw [UInt8.ofNat_toNat] at at_
  exact at_ h

theorem number_cons {t : Bytes} (ht : t ∈ JsonText.number) : ∃ b s, t = b :: s ∧ (b = minus ∨ isDigit b = true) := by
  have number := (isNumber_iff t).mpr ht
  cases t with
  | nil => cases number
  | cons b s => exact ⟨b, s, rfl, isNumber_head number⟩

theorem readWord_number {t r : Bytes} {v : Json} (ht : t ∈ JsonText.number) (hv : numberValue float t = some v)
    (stops : Stops r) : readWord float (t ++ r) = some (v, r) := by
  obtain ⟨b, s, rfl, head⟩ := number_cons ht
  obtain ⟨-, -, -, -, notN, notT, notF⟩ := number_head head
  unfold readWord
  rw [null_eq, true_eq, false_eq, List.cons_append, behind_other notN.symm, behind_other notT.symm,
    behind_other notF.symm]
  exact readNumber_complete ht hv stops

theorem readWord_null (r : Bytes) : readWord float (.ofAscii "null" ++ r) = some (.null, r) := by
  unfold readWord
  rw [behind_some.mpr rfl]

theorem readWord_bool (b : Bool) (r : Bytes) :
    readWord float (.ofAscii (if b then "true" else "false") ++ r) = some (.bool b, r) := by
  cases b with
  | true =>
    have first : behind (.ofAscii "null") (.ofAscii "true" ++ r) = none := behind_other (by decide) _ _
    unfold readWord
    simp only [if_true, first, behind_some.mpr rfl]
  | false =>
    have first : behind (.ofAscii "null") (.ofAscii "false" ++ r) = none := behind_other (by decide) _ _
    have second : behind (.ofAscii "true") (.ofAscii "false" ++ r) = none := behind_other (by decide) _ _
    unfold readWord
    simp only [Bool.false_eq_true, if_false, first, second, behind_some.mpr rfl]

end Mlxforge.Json
