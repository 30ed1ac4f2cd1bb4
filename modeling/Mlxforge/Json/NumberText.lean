import Mlxforge.Json.Texts
import Mlxforge.Sample.JsonReading

/-!
Number texts: the grammar of numbers decided by the automaton of the byte-level grammar, and the decimal text of an
integer read back.
-/

namespace Mlxforge.Json

open Ascii JsonText Language

/-- The bytes behind a state of the automaton finish a number. -/
def endsNumber (num : Num) : Bytes → Bool
  | [] => num.terminable
  | b :: t =>
    match ({ num } : JsonGrammar).numberContinue b with
    | some num => endsNumber num t
    | none => false

def isNumber : Bytes → Bool
  | [] => false
  | b :: t =>
    if b = minus then endsNumber .sign t
    else if b = zero then endsNumber .intZero t
    else if 0x31 ≤ b ∧ b ≤ 0x39 then endsNumber .intDigits t
    else false

theorem cons_not_mem_one {b : UInt8} {t : Bytes} : b :: t ∉ (1 : Language UInt8) := by simp [Language.mem_one]

theorem endsNumber_iff (num : Num) (t : Bytes) : endsNumber num t = true ↔ t ∈ numberRest num := by
  induction t generalizing num with
  | nil =>
    have ends : [] ∈ numberRest num * 1 ↔ _ := nil_mem_numberRest_mul
    rw [mul_one] at ends
    rw [endsNumber, ends]
    exact ⟨fun h => ⟨h, rfl⟩, And.left⟩
  | cons b t ih =>
    have next := cons_mem_numberRest_mul (b := b) (t := t) (m := 1) ({ num } : JsonGrammar) rfl
    simp only [mul_one, cons_not_mem_one, and_false, or_false] at next
    rw [endsNumber, next]
    cases ({ num } : JsonGrammar).numberContinue b with
    | none => simp
    | some num' => simp [ih]

theorem isNumber_iff (t : Bytes) : isNumber t = true ↔ t ∈ number := by
  cases t with
  | nil =>
    refine iff_of_false nofun fun h => ?_
    rw [number, nil_mem_mul, nil_mem_mul] at h
    simpa [JsonText.int, Language.mem_add] using h.2.1
  | cons b t =>
    have first := cons_mem_number_mul (b := b) (t := t) (m := 1)
    simp only [mul_one] at first
    rw [isNumber, first]
    by_cases hm : b = minus
    · subst hm
      have others : minus ≠ zero ∧ ¬(0x31 ≤ minus ∧ minus ≤ 0x39) := by decide
      simp [others, endsNumber_iff]
    by_cases hz : b = zero
    · subst hz
      have others : zero ≠ minus ∧ ¬(0x31 ≤ zero ∧ zero ≤ 0x39) := by decide
      simp [others, endsNumber_iff]
    · simp [hm, hz, endsNumber_iff]

/-! ### The bytes of a number -/

def isNumberByte (b : UInt8) : Bool := isDigit b || b == minus || b == plus || b == dot || isExp b

theorem isDigit_iff {b : UInt8} : isDigit b = true ↔ 48 ≤ b.toNat ∧ b.toNat ≤ 57 := by
  simp [isDigit, UInt8.le_iff_toNat_le]

theorem isDigit_of_nonzero {b : UInt8} (h : 0x31 ≤ b ∧ b ≤ 0x39) : isDigit b = true := by
  rw [UInt8.le_iff_toNat_le, UInt8.le_iff_toNat_le] at h
  exact isDigit_iff.mpr ⟨le_trans (by decide) h.1, h.2⟩

theorem numberByte_of_continue {g : JsonGrammar} {b : UInt8} {num : Num} (h : g.numberContinue b = some num) :
    isNumberByte b = true := by
  have digit := isDigit_of_nonzero (b := b)
  have isZero : isDigit zero = true := by decide
  unfold JsonGrammar.numberContinue at h
  unfold isNumberByte
  cases num' : g.num <;> simp only [num'] at h <;> grind

theorem numberBytes_of_ends {num : Num} {t : Bytes} (h : endsNumber num t = true) : ∀ b ∈ t, isNumberByte b = true := by
  induction t generalizing num with
  | nil => nofun
  | cons b t ih =>
    rw [endsNumber] at h
    split at h
    next num' step =>
      rw [List.forall_mem_cons]
      exact ⟨numberByte_of_continue step, ih h⟩
    · cases h

/-- A number starts with a digit or the sign. -/
theorem isNumber_head {b : UInt8} {t : Bytes} (h : isNumber (b :: t) = true) : b = minus ∨ isDigit b = true := by
  rw [isNumber] at h
  by_cases hm : b = minus
  · exact .inl hm
  by_cases hz : b = zero
  · subst hz
    exact .inr (by decide)
  rw [if_neg hm, if_neg hz] at h
  split at h
  next d => exact .inr (isDigit_of_nonzero d)
  · cases h

theorem numberBytes {t : Bytes} (h : isNumber t = true) : ∀ b ∈ t, isNumberByte b = true := by
  cases t with
  | nil => nofun
  | cons b t =>
    rw [List.forall_mem_cons]
    constructor
    · unfold isNumberByte
      rcases isNumber_head h with rfl | digit
      · decide
      · simp [digit]
    · rw [isNumber] at h
      split at h
      · exact numberBytes_of_ends h
      split at h
      · exact numberBytes_of_ends h
      split at h
      · exact numberBytes_of_ends h
      · cases h

/-! ### Integers -/

theorem endsNumber_digits {ds : Bytes} (digits : ∀ b ∈ ds, isDigit b = true) : endsNumber .intDigits ds = true := by
  induction ds with
  | nil => rfl
  | cons b ds ih =>
    rw [List.forall_mem_cons] at digits
    have step : ({ num := .intDigits } : JsonGrammar).numberContinue b = some .intDigits := if_pos digits.1
    rw [endsNumber, step]
    exact ih digits.2

/-- The decimal digits of a positive number start with no zero. -/
theorem toDigits_head {n : Nat} (pos : 0 < n) : ∃ d ds, Nat.toDigits 10 n = d :: ds ∧ d ≠ '0' := by
  induction n using Nat.strong_induction_on with
  | _ n ih =>
    by_cases small : n < 10
    · have digits : ∀ n < 10, 0 < n → n.digitChar ≠ '0' := by decide
      exact ⟨_, [], Nat.toDigits_of_lt_base small, digits n small pos⟩
    · rw [Nat.toDigits_of_base_le (by decide) (by omega)]
      obtain ⟨d, ds, eq, nonzero⟩ := ih (n / 10) (by omega) (by omega)
      exact ⟨d, ds ++ [(n % 10).digitChar], by rw [eq]; rfl, nonzero⟩

def digitBytes (n : Nat) : Bytes := .ofAscii (toString n)

theorem digitBytes_eq (n : Nat) : digitBytes n = (Nat.toDigits 10 n).map fun c => UInt8.ofNat c.toNat := by
  simp [digitBytes, Bytes.ofAscii, toString, Nat.toList_repr]

theorem digitByte {n : Nat} {c : Char} (h : c ∈ Nat.toDigits 10 n) :
    (UInt8.ofNat c.toNat).toNat = c.toNat ∧ 48 ≤ c.toNat ∧ c.toNat ≤ 57 := by
  have digit := Char.isDigit_iff_toNat.mp (Nat.isDigit_of_mem_toDigits (by decide) (by decide) h)
  have bounds : 48 ≤ c.toNat ∧ c.toNat ≤ 57 := digit
  exact ⟨UInt8.toNat_ofNat_of_lt' (Nat.lt_of_le_of_lt bounds.2 (by decide)), bounds⟩

theorem digitBytes_digits (n : Nat) : ∀ b ∈ digitBytes n, isDigit b = true := by
  intro b hb
  rw [digitBytes_eq] at hb
  obtain ⟨c, hc, rfl⟩ := List.mem_map.mp hb
  have digit := digitByte hc
  rw [isDigit_iff, digit.1]
  exact digit.2

theorem digitBytes_head {n : Nat} (pos : 0 < n) : ∃ b ds, digitBytes n = b :: ds ∧ 0x31 ≤ b ∧ b ≤ 0x39 := by
  obtain ⟨d, ds, eq, nonzero⟩ := toDigits_head pos
  have digit := digitByte (n := n) (c := d) (by simp [eq])
  have other : d.toNat ≠ 48 := fun same => nonzero (Char.toNat_inj.mp same)
  refine ⟨UInt8.ofNat d.toNat, ds.map fun c => UInt8.ofNat c.toNat, by rw [digitBytes_eq, eq]; rfl, ?_⟩
  rw [UInt8.le_iff_toNat_le, UInt8.le_iff_toNat_le, digit.1]
  have low : (0x31 : UInt8).toNat = 49 := rfl
  have high : (0x39 : UInt8).toNat = 57 := rfl
  omega

theorem digitsValue_digitBytes (n : Nat) : digitsValue (digitBytes n) = n := by
  have chars (cs : List Char) (m : Nat) (small : ∀ c ∈ cs, (UInt8.ofNat c.toNat).toNat = c.toNat) :
      (cs.map fun c => UInt8.ofNat c.toNat).foldl (fun n b => 10 * n + (b.toNat - 0x30)) m = Nat.ofDigitChars 10 cs m := by
    induction cs generalizing m with
    | nil => rfl
    | cons c cs ih =>
      rw [List.forall_mem_cons] at small
      rw [List.map_cons, List.foldl_cons, ih _ small.2, Nat.ofDigitChars_cons, small.1]
      rfl
  rw [digitsValue, digitBytes_eq, chars _ _ fun c hc => (digitByte hc).1, Nat.ofDigitChars_ten_toDigits]

theorem isNumber_digitBytes (n : Nat) : isNumber (digitBytes n) = true := by
  rcases Nat.eq_zero_or_pos n with rfl | pos
  · decide
  · obtain ⟨b, ds, eq, nonzero⟩ := digitBytes_head pos
    have digits := digitBytes_digits n
    rw [eq, List.forall_mem_cons] at digits
    have others : b ≠ minus ∧ b ≠ zero := by
      constructor
      · rintro rfl
        exact absurd nonzero (by decide)
      · rintro rfl
        exact absurd nonzero (by decide)
    rw [eq, isNumber, if_neg others.1, if_neg others.2, if_pos nonzero]
    exact endsNumber_digits digits.2

theorem intValue_digitBytes (n : Nat) : intValue (digitBytes n) = some (n : Int) := by
  have value := digitsValue_digitBytes n
  have digits := digitBytes_digits n
  cases eq : digitBytes n with
  | nil =>
    have wrong := isNumber_digitBytes n
    rw [eq] at wrong
    cases wrong
  | cons b ds =>
    rw [eq] at value digits
    have other : b ≠ minus := by
      rintro rfl
      exact absurd (digits minus List.mem_cons_self) (by decide)
    rw [intValue, if_neg other, if_pos (List.all_eq_true.mpr digits), value]

theorem intText (i : Int) : isNumber (.ofAscii (toString i)) = true ∧ intValue (.ofAscii (toString i)) = some i := by
  cases i with
  | ofNat n => exact ⟨isNumber_digitBytes n, intValue_digitBytes n⟩
  | negSucc n =>
    have text : Bytes.ofAscii (toString (Int.negSucc n)) = minus :: digitBytes (n + 1) := by
      have sign : toString (Int.negSucc n) = "-" ++ toString (n + 1) := rfl
      rw [sign, Bytes.ofAscii, String.toList_append, List.map_append]
      rfl
    obtain ⟨b, ds, eq, nonzero⟩ := digitBytes_head (n := n + 1) (by omega)
    have digits := digitBytes_digits (n + 1)
    constructor
    · rw [text, isNumber, if_pos rfl]
      have step : ({ num := .sign } : JsonGrammar).numberContinue b = some .intDigits := by
        have other : b ≠ zero := by
          rintro rfl
          exact absurd nonzero (by decide)
        exact (if_neg other).trans (if_pos nonzero)
      rw [eq, endsNumber, step]
      rw [eq, List.forall_mem_cons] at digits
      exact endsNumber_digits digits.2
    · rw [text, intValue, if_pos rfl, if_pos (List.all_eq_true.mpr digits), digitsValue_digitBytes]
      rfl

/-- A number is no other value. -/
theorem numberValue_cases {float : Bytes → Option Rat} {t : Bytes} {v : Json} (h : numberValue float t = some v) :
    (∃ i, v = .int i) ∨ ∃ x, v = .float x := by
  have double {v : Json} (h : (float t).map Json.float = some v) : ∃ x, v = .float x := by
    obtain ⟨x, -, same⟩ := Option.map_eq_some_iff.mp h
    exact ⟨x, same.symm⟩
  unfold numberValue at h
  split at h
  · split at h
    · exact .inl ⟨_, (Option.some.inj h).symm⟩
    · exact .inr (double h)
  · exact .inr (double h)

end Mlxforge.Json
