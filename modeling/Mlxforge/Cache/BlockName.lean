import Mlxforge.Lib.Utf8

/-!
The names of the spill directory's files: a block's name is the sixteen hexadecimal digits of its key, and the recovery
scan reads a key out of a name with `std::stoull`.
-/

namespace Mlxforge

/-! ### Hexadecimal digits -/

def hexDigit (n : Nat) : UInt8 := if n < 10 then .ofNat (0x30 + n) else .ofNat (0x57 + n)

/-- The value of a digit of either case. -/
def hexValue (c : UInt8) : Option Nat :=
  if 0x30 ≤ c ∧ c ≤ 0x39 then some (c.toNat - 0x30)
  else if 0x61 ≤ c ∧ c ≤ 0x66 then some (c.toNat - 0x57)
  else if 0x41 ≤ c ∧ c ≤ 0x46 then some (c.toNat - 0x37)
  else none

def LowerHex (c : UInt8) : Prop := (0x30 ≤ c ∧ c ≤ 0x39) ∨ (0x61 ≤ c ∧ c ≤ 0x66)

instance : DecidablePred LowerHex := fun _ => inferInstanceAs (Decidable (_ ∨ _))

/-- `%0nllx`: the `n` low digits, the highest one first. -/
def hexDigits : (n : Nat) → Nat → Bytes
  | 0, _ => []
  | n + 1, v => hexDigits n (v / 16) ++ [hexDigit (v % 16)]

/-- The digits a byte string starts with. -/
def leadingHex : Bytes → List Nat
  | [] => []
  | c :: s =>
    match hexValue c with
    | none => []
    | some d => d :: leadingHex s

def ofHexDigits (digits : List Nat) : Nat := digits.foldl (fun v d => 16 * v + d) 0

/-! ### Parsing a key -/

def isSpace (c : UInt8) : Bool := c = 0x20 ∨ 0x09 ≤ c ∧ c ≤ 0x0D

/-- A sign is optional; what a minus negates wraps. -/
def takeSign : Bytes → Bool × Bytes
  | 0x2B :: s => (false, s)
  | 0x2D :: s => (true, s)
  | s => (false, s)

/-- `0x` is a prefix where a digit follows it. -/
def dropHexPrefix : Bytes → Bytes
  | 0x30 :: x :: d :: s => if (x = 0x78 ∨ x = 0x58) ∧ (hexValue d).isSome then d :: s else 0x30 :: x :: d :: s
  | s => s

/-- `std::stoull(s, nullptr, 16)`: spaces, a sign, a prefix, and as many digits as there are. `none` where it throws: no
digit, or more than 64 bits. What follows the digits is ignored. -/
def stoull (s : Bytes) : Option UInt64 :=
  let (negative, s) := takeSign (s.dropWhile isSpace)
  let digits := leadingHex (dropHexPrefix s)
  if digits = [] then none
  else
    let v := ofHexDigits digits
    if 2 ^ 64 ≤ v then none else some (if negative then 0 - .ofNat v else .ofNat v)

/-! ### File names -/

abbrev FileName := Bytes

/-- `stem` and `extension`: the name up to its last dot, and from there on. A leading dot does not count. -/
def splitName (name : FileName) : Bytes × Bytes :=
  match name.reverse.dropWhile (· ≠ 0x2E) with
  | dot :: c :: stem => ((c :: stem).reverse, dot :: (name.reverse.takeWhile (· ≠ 0x2E)).reverse)
  | _ => (name, [])

def kvb : Bytes := [0x2E, 0x6B, 0x76, 0x62]

def tmp : Bytes := [0x2E, 0x74, 0x6D, 0x70]

def pathOf (hash : UInt64) : FileName := hexDigits 16 hash.toNat ++ kvb

/-- The name a block is written under before it is renamed. -/
def tmpOf (hash : UInt64) : FileName := pathOf hash ++ tmp

/-! ### A key and its name -/

section
variable {c : UInt8} {d n v : Nat} {s stem e : Bytes} {hash : UInt64}

theorem hexDigit_lower (small : d < 16) : LowerHex (hexDigit d) ∧ hexValue (hexDigit d) = some d := by
  have all : ∀ d : Fin 16, LowerHex (hexDigit d) ∧ hexValue (hexDigit d) = some d.val := by decide
  exact all ⟨d, small⟩

/-- A lower-case digit is the digit of its value. -/
theorem LowerHex.digit (lower : LowerHex c) : ∃ d < 16, hexValue c = some d ∧ hexDigit d = c := by
  rcases lower with ⟨low, high⟩ | ⟨low, high⟩
  · have low' : 0x30 ≤ c.toNat := UInt8.le_iff_toNat_le.mp low
    have high' : c.toNat ≤ 0x39 := UInt8.le_iff_toNat_le.mp high
    refine ⟨c.toNat - 0x30, by omega, if_pos ⟨low, high⟩, ?_⟩
    rw [hexDigit, if_pos (by omega), Nat.add_sub_cancel' low', UInt8.ofNat_toNat]
  · have low' : 0x61 ≤ c.toNat := UInt8.le_iff_toNat_le.mp low
    have high' : c.toNat ≤ 0x66 := UInt8.le_iff_toNat_le.mp high
    have letter : ¬(0x30 ≤ c ∧ c ≤ 0x39) := fun digit => by
      have : c.toNat ≤ 0x39 := UInt8.le_iff_toNat_le.mp digit.2
      omega
    refine ⟨c.toNat - 0x57, by omega, ?_, ?_⟩
    · rw [hexValue, if_neg letter, if_pos ⟨low, high⟩]
    · rw [hexDigit, if_neg (by omega), Nat.add_sub_cancel' (by omega), UInt8.ofNat_toNat]

@[simp] theorem hexDigits_length (n v : Nat) : (hexDigits n v).length = n := by
  induction n generalizing v with
  | zero => rfl
  | succ n ih => rw [hexDigits, List.length_append, ih, List.length_singleton]

theorem hexDigits_lower (n v : Nat) : ∀ c ∈ hexDigits n v, LowerHex c := by
  induction n generalizing v with
  | zero => nofun
  | succ n ih =>
    intro c member
    rw [hexDigits, List.mem_append, List.mem_singleton] at member
    rcases member with member | rfl
    · exact ih _ c member
    · exact (hexDigit_lower (Nat.mod_lt v (by decide))).1

theorem leadingHex_append (digits : ∀ c ∈ s, LowerHex c) (e : Bytes) : leadingHex (s ++ e) = leadingHex s ++ leadingHex e := by
  induction s with
  | nil => rfl
  | cons c s ih =>
    obtain ⟨d, _, value, _⟩ := (digits c List.mem_cons_self).digit
    have rest := ih fun c member => digits c (List.mem_cons_of_mem _ member)
    rw [List.cons_append, leadingHex, leadingHex, value, rest]
    rfl

theorem ofHexDigits_append (ds : List Nat) (d : Nat) : ofHexDigits (ds ++ [d]) = 16 * ofHexDigits ds + d := by
  rw [ofHexDigits, List.foldl_append]
  rfl

theorem ofHexDigits_hexDigits (n v : Nat) : ofHexDigits (leadingHex (hexDigits n v)) = v % 16 ^ n := by
  induction n generalizing v with
  | zero =>
    rw [pow_zero, Nat.mod_one]
    rfl
  | succ n ih =>
    have last : leadingHex [hexDigit (v % 16)] = [v % 16] := by
      rw [leadingHex, (hexDigit_lower (Nat.mod_lt v (by decide))).2]
      rfl
    rw [hexDigits, leadingHex_append (hexDigits_lower n _), last, ofHexDigits_append, ih, pow_succ, Nat.mul_comm (16 ^ n),
      Nat.mod_mul]
    exact Nat.add_comm _ _

/-- A string of lower-case digits is how its value is printed. -/
theorem hexDigits_ofHexDigits (digits : ∀ c ∈ s, LowerHex c) : hexDigits s.length (ofHexDigits (leadingHex s)) = s := by
  induction s using List.reverseRecOn with
  | nil => rfl
  | append_singleton s c ih =>
    obtain ⟨d, small, value, digit⟩ := (digits c (by simp)).digit
    have front : ∀ c ∈ s, LowerHex c := fun c member => digits c (List.mem_append_left _ member)
    have last : leadingHex [c] = [d] := by
      rw [leadingHex, value]
      rfl
    have high : (16 * ofHexDigits (leadingHex s) + d) / 16 = ofHexDigits (leadingHex s) := by omega
    have low : (16 * ofHexDigits (leadingHex s) + d) % 16 = d := by omega
    rw [leadingHex_append front, last, ofHexDigits_append, List.length_append, List.length_singleton, hexDigits, high, low,
      ih front, digit]

theorem LowerHex.plain (lower : LowerHex c) : isSpace c = false ∧ c ≠ 0x2B ∧ c ≠ 0x2D ∧ c ≠ 0x78 ∧ c ≠ 0x58 ∧ c ≠ 0x2E := by
  have low : 0x30 ≤ c := by
    rcases lower with ⟨low, _⟩ | ⟨low, _⟩
    · exact low
    · exact UInt8.le_trans (by decide) low
  have high : c ≤ 0x66 := by
    rcases lower with ⟨_, high⟩ | ⟨_, high⟩
    · exact UInt8.le_trans high (by decide)
    · exact high
  have low' : 0x30 ≤ c.toNat := UInt8.le_iff_toNat_le.mp low
  have high' : c.toNat ≤ 0x66 := UInt8.le_iff_toNat_le.mp high
  refine ⟨?_, ?_, ?_, ?_, ?_, ?_⟩
  · simp only [isSpace, decide_eq_false_iff_not, UInt8.le_iff_toNat_le, ← UInt8.toNat_inj]
    simp only [UInt8.reduceToNat]
    omega
  · rintro rfl
    exact absurd low' (by decide)
  · rintro rfl
    exact absurd low' (by decide)
  · rintro rfl
    exact absurd high' (by decide)
  · rintro rfl
    rcases lower with lower | lower
    · exact absurd lower.2 (by decide)
    · exact absurd lower.1 (by decide)
  · rintro rfl
    exact absurd low' (by decide)

theorem dropHexPrefix_lower (digits : ∀ c ∈ s, LowerHex c) : dropHexPrefix s = s := by
  unfold dropHexPrefix
  split
  · rename_i x d rest
    obtain ⟨_, _, _, notLower, notUpper, _⟩ := (digits x (by simp)).plain
    exact if_neg fun prefixed => prefixed.1.elim notLower notUpper
  · rfl

theorem takeSign_digit (lower : LowerHex c) : takeSign (c :: s) = (false, c :: s) := by
  obtain ⟨_, plus, minus, _⟩ := lower.plain
  unfold takeSign
  split
  · rename_i eq
    exact absurd (List.cons.inj eq).1 plus
  · rename_i eq
    exact absurd (List.cons.inj eq).1 minus
  · rfl

theorem stoull_lower (some : s ≠ []) (digits : ∀ c ∈ s, LowerHex c) :
    stoull s = if 2 ^ 64 ≤ ofHexDigits (leadingHex s) then none else .some (.ofNat (ofHexDigits (leadingHex s))) := by
  obtain ⟨c, s, rfl⟩ := List.exists_cons_of_ne_nil some
  have first := digits c List.mem_cons_self
  obtain ⟨d, _, value, _⟩ := first.digit
  have spaces : (c :: s).dropWhile isSpace = c :: s := List.dropWhile_cons_of_neg (by rw [first.plain.1]; exact Bool.false_ne_true)
  have count : leadingHex (c :: s) ≠ [] := by
    rw [leadingHex, value]
    exact List.cons_ne_nil _ _
  unfold stoull
  simp only [spaces, takeSign_digit first, dropHexPrefix_lower digits, if_neg count, Bool.false_eq_true, if_false]

/-- The stem of a name the store gives. -/
def Canonical (stem : Bytes) : Prop := stem.length = 16 ∧ ∀ c ∈ stem, LowerHex c

instance : DecidablePred Canonical := fun _ => inferInstanceAs (Decidable (_ ∧ _))

theorem canonical_hexDigits (v : Nat) : Canonical (hexDigits 16 v) := ⟨hexDigits_length 16 v, hexDigits_lower 16 v⟩

theorem stoull_hexDigits (hash : UInt64) : stoull (hexDigits 16 hash.toNat) = some hash := by
  have some : hexDigits 16 hash.toNat ≠ [] := List.ne_nil_of_length_eq_add_one (hexDigits_length 16 _)
  have small := hash.toNat_lt
  have value : ofHexDigits (leadingHex (hexDigits 16 hash.toNat)) = hash.toNat := by
    rw [ofHexDigits_hexDigits]
    exact Nat.mod_eq_of_lt small
  rw [stoull_lower some (hexDigits_lower 16 _), value, if_neg (Nat.not_le.mpr small), UInt64.ofNat_toNat]

/-- A stem that is parsed is the key's own one when it is sixteen lower-case digits. -/
theorem canonical_iff (parsed : stoull stem = some hash) : stem = hexDigits 16 hash.toNat ↔ Canonical stem := by
  constructor
  · intro own
    rw [own]
    exact canonical_hexDigits _
  · intro ⟨count, digits⟩
    rw [stoull_lower (List.ne_nil_of_length_eq_add_one count) digits] at parsed
    split at parsed
    · cases parsed
    · rename_i small
      obtain rfl := Option.some.inj parsed
      have printed := hexDigits_ofHexDigits digits
      rw [count] at printed
      rw [UInt64.toNat_ofNat_of_lt' (Nat.not_le.mp small), printed]

theorem splitName_append (some : stem ≠ []) (plain : 0x2E ∉ e) : splitName (stem ++ 0x2E :: e) = (stem, 0x2E :: e) := by
  have dotless : ∀ c ∈ e.reverse, decide (c ≠ 0x2E) = true := by
    intro c member
    exact decide_eq_true fun eq => plain (List.mem_reverse.mp (eq ▸ member))
  have reversed : (stem ++ 0x2E :: e).reverse = e.reverse ++ 0x2E :: stem.reverse := by simp
  unfold splitName
  rw [reversed, List.dropWhile_append_of_pos dotless, List.takeWhile_append_of_pos dotless,
    List.dropWhile_cons_of_neg (by simp), List.takeWhile_cons_of_neg (by simp), List.append_nil, List.reverse_reverse]
  obtain ⟨c, front, eq⟩ := List.exists_cons_of_ne_nil (fun eq => some (List.reverse_eq_nil_iff.mp eq) : stem.reverse ≠ [])
  rw [eq]
  change ((c :: front).reverse, _) = _
  rw [← eq, List.reverse_reverse]

theorem splitName_parts (name : FileName) : (splitName name).1 ++ (splitName name).2 = name := by
  unfold splitName
  split
  · rename_i dot c stem eq
    have whole := List.takeWhile_append_dropWhile (p := fun c : UInt8 => decide (c ≠ 0x2E)) (l := name.reverse)
    rw [eq] at whole
    have reversed := congrArg List.reverse whole
    rw [List.reverse_reverse] at reversed
    refine Eq.trans ?_ reversed
    simp
  · exact List.append_nil _

theorem splitName_pathOf (hash : UInt64) : splitName (pathOf hash) = (hexDigits 16 hash.toNat, kvb) :=
  splitName_append (List.ne_nil_of_length_eq_add_one (hexDigits_length 16 _)) (by decide)

theorem splitName_tmpOf (hash : UInt64) : splitName (tmpOf hash) = (pathOf hash, tmp) :=
  splitName_append (by simp [pathOf, kvb]) (by decide)

theorem pathOf_injective : Function.Injective pathOf := by
  intro hash hash' same
  have stems := congrArg (fun name => stoull (splitName name).1) same
  simp only [splitName_pathOf, stoull_hexDigits] at stems
  exact Option.some.inj stems

theorem tmpOf_ne_pathOf (hash hash' : UInt64) : tmpOf hash ≠ pathOf hash' := by
  intro same
  have exts := congrArg (fun name => (splitName name).2) same
  simp only [splitName_tmpOf, splitName_pathOf] at exts
  exact absurd exts (by decide)

end

end Mlxforge
