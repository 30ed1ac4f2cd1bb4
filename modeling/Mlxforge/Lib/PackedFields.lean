import Mlxforge.Lib.ByteReader
import Mlxforge.Lib.Rows

/-!
A byte buffer as one little-endian number. Bytes, words and narrower fields are its digits in different bases, so a field
can be read off the words, off the bytes or off one part of the buffer alike.
-/

namespace Mlxforge

/-- Field `i` of a buffer of fields that are `bits` wide. -/
def field (bits : Nat) (bytes : Bytes) (i : Nat) : Nat := fromLittleEndian bytes / 2 ^ (bits * i) % 2 ^ bits

/-- A digit of a digit is a digit. -/
theorem digit_digit (x a b c d : Nat) : x / a % (b * c * d) / b % c = x / (a * b) % c := by
  rw [Nat.mul_assoc, Nat.mod_mul_right_div_self, Nat.mod_mul_right_mod, Nat.div_div_eq_div_mul]

theorem fromLittleEndian_take (bytes : Bytes) (n : Nat) :
    fromLittleEndian (bytes.take n) = fromLittleEndian bytes % 256 ^ n := by
  induction n generalizing bytes with
  | zero => rw [List.take_zero, pow_zero, Nat.mod_one]; rfl
  | succ n ih =>
    cases bytes with
    | nil => rw [List.take_nil, show fromLittleEndian [] = 0 from rfl, Nat.zero_mod]
    | cons b bytes =>
      have low := b.toNat_lt
      rw [List.take_succ_cons, fromLittleEndian, fromLittleEndian, ih, pow_succ, Nat.mul_comm (256 ^ n), Nat.mod_mul,
        show (b.toNat + 256 * fromLittleEndian bytes) % 256 = b.toNat by omega,
        show (b.toNat + 256 * fromLittleEndian bytes) / 256 = fromLittleEndian bytes by omega]

theorem fromLittleEndian_drop (bytes : Bytes) (n : Nat) :
    fromLittleEndian (bytes.drop n) = fromLittleEndian bytes / 256 ^ n := by
  induction n generalizing bytes with
  | zero => rw [List.drop_zero, pow_zero, Nat.div_one]
  | succ n ih =>
    cases bytes with
    | nil => rw [List.drop_nil, show fromLittleEndian [] = 0 from rfl, Nat.zero_div]
    | cons b bytes =>
      have low := b.toNat_lt
      rw [List.drop_succ_cons, ih, fromLittleEndian, pow_succ, Nat.mul_comm (256 ^ n), ← Nat.div_div_eq_div_mul,
        show (b.toNat + 256 * fromLittleEndian bytes) / 256 = fromLittleEndian bytes by omega]

/-- Part `i` of `k` bytes is a digit. -/
theorem fromLittleEndian_row (k : Nat) (bytes : Bytes) (i : Nat) :
    fromLittleEndian (row k bytes i) = field (8 * k) bytes i := by
  rw [row, fromLittleEndian_take, fromLittleEndian_drop, field, show (256 : Nat) = 2 ^ 8 from rfl, ← pow_mul, ← pow_mul,
    Nat.mul_assoc, Nat.mul_comm i k]

theorem field_byte (bytes : Bytes) (i : Nat) : field 8 bytes i = (bytes.getD i 0).toNat := by
  have part : row 1 bytes i = (bytes.drop i).take 1 := by rw [row, Nat.mul_one]
  have value : fromLittleEndian ((bytes.drop i).take 1) = (bytes.getD i 0).toNat := by
    by_cases inside : i < bytes.length
    · rw [List.drop_eq_getElem_cons inside, List.take_succ_cons, List.take_zero, List.getD_eq_getElem _ _ inside]
      rfl
    · rw [List.drop_eq_nil_of_le (by omega), List.getD_eq_default _ _ (by omega)]
      rfl
  rw [← value, ← part, fromLittleEndian_row]

/-- A field that lies within a wider one. -/
theorem field_field {wide bits i j : Nat} (bytes : Bytes) (inside : bits * (j + 1) ≤ wide) :
    field wide bytes i / 2 ^ (bits * j) % 2 ^ bits = fromLittleEndian bytes / 2 ^ (wide * i + bits * j) % 2 ^ bits := by
  have split : 2 ^ wide = 2 ^ (bits * j) * 2 ^ bits * 2 ^ (wide - bits * (j + 1)) := by
    rw [← pow_add, ← pow_add, ← Nat.mul_add_one]
    congr 1
    omega
  rw [field, split, digit_digit, ← pow_add]

/-- The fields of part `i` are the buffer's own. -/
theorem field_row {bits n k i j : Nat} (bytes : Bytes) (fill : bits * n = 8 * k) (inside : j < n) :
    field bits (row k bytes i) j = field bits bytes (n * i + j) := by
  have room : bits * (j + 1) ≤ 8 * k := by
    rw [← fill]
    exact Nat.mul_le_mul_left bits inside
  rw [field, fromLittleEndian_row, field_field bytes room, field, ← fill, Nat.mul_add, Nat.mul_assoc]

/-- Field `i` of a buffer of words, where a field does not straddle two of them. -/
theorem field_of_word {bits : Nat} (bytes : Bytes) (i : Nat) (fits : i * bits % 32 + bits ≤ 32) :
    field 32 bytes (i * bits / 32) / 2 ^ (i * bits % 32) % 2 ^ bits = field bits bytes i := by
  have split : 2 ^ 32 = 2 ^ (i * bits % 32) * 2 ^ bits * 2 ^ (32 - (i * bits % 32 + bits)) := by
    rw [← pow_add, ← pow_add]
    congr 1
    omega
  rw [field, split, digit_digit, ← pow_add, Nat.div_add_mod, field, Nat.mul_comm i bits]

theorem field_nibble (bytes : Bytes) (i : Nat) :
    field 4 bytes i = (bytes.getD (i / 2) 0).toNat / 16 ^ (i % 2) % 16 := by
  have part : field 4 (row 1 bytes (i / 2)) (i % 2) = field 4 bytes i := by
    have two : 4 * 2 = 8 * 1 := rfl
    rw [field_row bytes two (Nat.mod_lt i (by decide)), Nat.div_add_mod]
  rw [← part, field, fromLittleEndian_row, field_byte, pow_mul]
  rfl

end Mlxforge
