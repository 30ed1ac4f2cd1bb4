import Mlxforge.Lib.Except
import Mlxforge.Lib.Utf8

/-!
# Base64

`base64Decode` collects the bits of the symbols in an `int` that is never masked, so the bits of earlier bytes stay in it
until they are shifted out. `exactDecode` is the same loop over a number that loses nothing.
-/

namespace Mlxforge

namespace Base64

abbrev pad : UInt8 := 0x3D

def isBlank (c : UInt8) : Bool := c == 0x0A || c == 0x0D || c == 0x20 || c == 0x09

/-- The value of a symbol, -1 for a character outside the alphabet. -/
def sextet (c : UInt8) : Int :=
  if 0x41 ≤ c ∧ c ≤ 0x5A then c.toNat - 0x41
  else if 0x61 ≤ c ∧ c ≤ 0x7A then c.toNat - 0x61 + 26
  else if 0x30 ≤ c ∧ c ≤ 0x39 then c.toNat - 0x30 + 52
  else if c = 0x2B then 62
  else if c = 0x2F then 63
  else -1

section
variable {α : Type} (push : α → Int → α) (byte : α → Nat → UInt8)

/-- The loop over the text, with `buf` as `push` fills it and `byte` reads it. -/
def loop (out : Bytes) (buf : α) (bits : Nat) : Bytes → Except String Bytes
  | [] => .ok out
  | c :: text =>
    if c = pad then .ok out
    else if isBlank c then loop out buf bits text
    else
      let v := sextet c
      if v < 0 then .error "invalid base64 character"
      else
        let buf := push buf v
        let bits := bits + 6
        if 8 ≤ bits then
          let bits := bits - 8
          loop (out ++ [byte buf bits]) buf bits text
        else loop out buf bits text

end

end Base64

open Base64

/-- The accumulator is an `int`: `buf << 6` wraps and `buf >> bits` keeps the sign. -/
def base64Decode (text : Bytes) : Except String Bytes :=
  loop (fun (buf : BitVec 32) v => buf <<< 6 ||| BitVec.ofInt 32 v)
    (fun buf bits => UInt8.ofNat (buf.sshiftRight bits &&& 0xFF).toNat) [] 0 0 text

/-- The same decoder over an accumulator that never loses a bit. -/
def exactDecode (text : Bytes) : Except String Bytes :=
  loop (fun (n : Nat) v => n * 64 + v.toNat) (fun n bits => UInt8.ofNat (n / 2 ^ bits)) [] 0 0 text

namespace Base64

/-! ### The loop -/

section
variable {α β : Type} {push : α → Int → α} {byte : α → Nat → UInt8}

theorem sextet_lt (c : UInt8) : sextet c < 64 := by
  obtain ⟨⟨⟨c, small⟩⟩⟩ := c
  revert c
  decide +kernel

theorem loop_unblanked (out : Bytes) (buf : α) (bits : Nat) (text : Bytes) :
    loop push byte out buf bits (text.filter fun c => !isBlank c) = loop push byte out buf bits text := by
  induction text generalizing out buf bits with
  | nil => rfl
  | cons c text ih =>
    by_cases blank : isBlank c = true
    · have symbol : c ≠ pad := by
        intro same
        rw [same] at blank
        exact absurd blank (by decide)
      rw [List.filter_cons_of_neg (by simp [blank]), ih, loop, if_neg symbol, if_pos blank]
    · rw [List.filter_cons_of_pos (by simp [blank])]
      simp only [loop, ih]

/-- The end of the text does what a pad does. -/
theorem loop_padded (out : Bytes) (buf : α) (bits n : Nat) (text : Bytes) :
    loop push byte out buf bits (text ++ List.replicate n pad) = loop push byte out buf bits text := by
  induction text generalizing out buf bits with
  | nil => cases n <;> rfl
  | cons c text ih => simp only [List.cons_append, loop, ih]

theorem loop_rejects {c : UInt8} {front : Bytes} (padless : pad ∉ front) (foreign : sextet c < 0) (solid : ¬isBlank c)
    (other : c ≠ pad) (out : Bytes) (buf : α) (bits : Nat) (rest : Bytes) :
    loop push byte out buf bits (front ++ c :: rest) = .error "invalid base64 character" := by
  induction front generalizing out buf bits with
  | nil => rw [List.nil_append, loop, if_neg other, if_neg solid, if_pos foreign]
  | cons b front ih =>
    obtain ⟨symbol, padless⟩ := not_or.mp (mt List.mem_cons.mpr padless)
    simp only [List.cons_append, loop, ih padless, ite_self, Ne.symm symbol, if_false]

/-- Two accumulators that hold the same low bits decode alike. -/
theorem loop_related {push' : β → Int → β} {byte' : β → Nat → UInt8} {R : α → β → Prop}
    (pushed : ∀ {a b v}, R a b → 0 ≤ v → v < 64 → R (push a v) (push' b v))
    (read : ∀ {a b bits}, R a b → bits < 8 → byte a bits = byte' b bits)
    {a : α} {b : β} (related : R a b) {bits : Nat} (few : bits < 8) (out text : Bytes) :
    loop push byte out a bits text = loop push' byte' out b bits text := by
  induction text generalizing out a b bits with
  | nil => rfl
  | cons c text ih =>
    simp only [loop]
    split
    · rfl
    split
    · exact ih related few out
    split
    · rfl
    next member =>
      have next := pushed related (by omega) (sextet_lt c)
      split
      next full => rw [read next (by omega), ih next (by omega)]
      next short => rw [ih next (by omega)]

end

/-! ### The accumulator -/

theorem ofNat_push {v : Int} (n : Nat) (nonneg : 0 ≤ v) (small : v < 64) :
    BitVec.ofNat 32 n <<< 6 ||| BitVec.ofInt 32 v = BitVec.ofNat 32 (n * 64 + v.toNat) := by
  obtain ⟨v, rfl⟩ := Int.eq_ofNat_of_zero_le nonneg
  have fits : v < 2 ^ 6 := by omega
  have shifted : BitVec.ofNat 32 n <<< 6 = BitVec.ofNat 32 (n <<< 6) := by
    apply BitVec.eq_of_toNat_eq
    simp [Nat.shiftLeft_eq, Nat.mod_mul_mod]
  have value : BitVec.ofInt 32 v = BitVec.ofNat 32 v := by simp
  rw [shifted, value, ← BitVec.ofNat_or, ← Nat.shiftLeft_add_eq_or_of_lt fits, Nat.shiftLeft_eq, Int.toNat_natCast]

/-- A byte lies within the low 32 bits, where the sign has not come in yet. -/
theorem ofNat_byte (n : Nat) {bits : Nat} (few : bits < 8) :
    UInt8.ofNat ((BitVec.ofNat 32 n).sshiftRight bits &&& 0xFF).toNat = UInt8.ofNat (n / 2 ^ bits) := by
  have low : (BitVec.ofNat 32 n).sshiftRight bits &&& 0xFF = BitVec.ofNat 32 (n / 2 ^ bits % 2 ^ 8) := by
    apply BitVec.eq_of_getLsbD_eq
    intro i inside
    have mask : (0xFF : BitVec 32).getLsbD i = decide (i < 8) := by
      rw [show (0xFF : BitVec 32) = BitVec.ofNat 32 (2 ^ 8 - 1) from rfl, BitVec.getLsbD_ofNat, Nat.testBit_two_pow_sub_one]
      simp [inside]
    rw [BitVec.getLsbD_and, BitVec.getLsbD_sshiftRight, mask]
    simp only [BitVec.getLsbD_ofNat, Nat.testBit_mod_two_pow, Nat.testBit_div_two_pow]
    by_cases byte : i < 8
    · have room : bits + i < 32 := by omega
      simp [inside, byte, room, Nat.add_comm]
    · simp [byte]
  have small : n / 2 ^ bits % 2 ^ 8 < 2 ^ 32 := lt_of_lt_of_le (Nat.mod_lt _ (by decide)) (by decide)
  rw [low, BitVec.toNat_ofNat, Nat.mod_eq_of_lt small]
  apply UInt8.toNat_inj.mp
  simp

theorem base64Decode_exact (text : Bytes) : base64Decode text = exactDecode text := by
  refine loop_related (R := fun buf n => buf = BitVec.ofNat 32 n) ?_ ?_ rfl (by decide) [] text
  · intro buf n v same nonneg small
    rw [same, ofNat_push n nonneg small]
  · intro buf n bits same few
    rw [same, ofNat_byte n few]

/-! ### The encoding -/

def alphabet : Bytes := .ofAscii "ABCDEFGHIJKLMNOPQRSTUVWXYZabcdefghijklmnopqrstuvwxyz0123456789+/"

def symbol (v : Nat) : UInt8 := alphabet.getD v 0

/-- Three bytes as four symbols, what is missing of the last group as pads. -/
def encode : Bytes → Bytes
  | [] => []
  | [a] => [symbol (a.toNat / 4), symbol (a.toNat % 4 * 16), pad, pad]
  | [a, b] =>
    [symbol (a.toNat / 4), symbol (a.toNat % 4 * 16 + b.toNat / 16), symbol (b.toNat % 16 * 4), pad]
  | a :: b :: c :: rest =>
    symbol (a.toNat / 4) :: symbol (a.toNat % 4 * 16 + b.toNat / 16) :: symbol (b.toNat % 16 * 4 + c.toNat / 64) ::
      symbol (c.toNat % 64) :: encode rest

/-- The text is an encoding with blanks put in anywhere and some of the pads behind it dropped. -/
def Loosens (text encoding : Bytes) : Prop :=
  ∃ dropped, (text.filter fun c => !isBlank c) ++ List.replicate dropped pad = encoding

theorem symbol_spec {v : Nat} (small : v < 64) : sextet (symbol v) = v ∧ symbol v ≠ pad ∧ isBlank (symbol v) = false := by
  revert v
  decide +kernel

theorem foreign_iff (c : UInt8) : sextet c < 0 ↔ c ∉ alphabet := by
  obtain ⟨⟨⟨c, small⟩⟩⟩ := c
  revert c
  decide +kernel

variable {α : Type} {push : α → Int → α} {byte : α → Nat → UInt8}

theorem loop_symbol {v : Nat} (small : v < 64) (out : Bytes) (buf : α) (bits : Nat) (text : Bytes) :
    loop push byte out buf bits (symbol v :: text) =
      if 2 ≤ bits then loop push byte (out ++ [byte (push buf v) (bits - 2)]) (push buf v) (bits - 2) text
      else loop push byte out (push buf v) (bits + 6) text := by
  obtain ⟨value, plain, solid⟩ := symbol_spec small
  have member : ¬(v : Int) < 0 := by omega
  simp only [loop, plain, solid, value, member, if_false, Bool.false_eq_true]
  rw [show bits + 6 - 8 = bits - 2 by omega]
  exact if_congr (by omega) rfl rfl

theorem ofNat_eq_toNat {n : Nat} {a : UInt8} (same : n % 256 = a.toNat) : UInt8.ofNat n = a := by
  apply UInt8.toNat_inj.mp
  rw [UInt8.toNat_ofNat', same]

/-- Whatever was read before, a whole number of bytes is behind us. -/
theorem loop_encode (x out : Bytes) (n : Nat) :
    loop (fun (n : Nat) v => n * 64 + v.toNat) (fun n bits => UInt8.ofNat (n / 2 ^ bits)) out n 0 (encode x) =
      .ok (out ++ x) := by
  induction x using encode.induct generalizing out n with
  | case1 => simp [encode, loop]
  | case2 a =>
    have la := a.toNat_lt
    have first : UInt8.ofNat (((n * 64 + a.toNat / 4) * 64 + a.toNat % 4 * 16) / 2 ^ 4) = a :=
      ofNat_eq_toNat (by omega)
    rw [encode, loop_symbol (by omega), if_neg (by decide), loop_symbol (by omega), if_pos (by decide)]
    simp only [Int.toNat_natCast, Nat.reduceSub, Nat.zero_add, first]
    rfl
  | case3 a b =>
    have la := a.toNat_lt
    have lb := b.toNat_lt
    have first : UInt8.ofNat (((n * 64 + a.toNat / 4) * 64 + (a.toNat % 4 * 16 + b.toNat / 16)) / 2 ^ 4) = a :=
      ofNat_eq_toNat (by omega)
    have second : UInt8.ofNat ((((n * 64 + a.toNat / 4) * 64 + (a.toNat % 4 * 16 + b.toNat / 16)) * 64
        + b.toNat % 16 * 4) / 2 ^ 2) = b := ofNat_eq_toNat (by omega)
    rw [encode, loop_symbol (by omega), if_neg (by decide), loop_symbol (by omega), if_pos (by decide),
      loop_symbol (by omega), if_pos (by decide)]
    simp only [Int.toNat_natCast, Nat.reduceSub, Nat.zero_add, first, second, List.append_assoc]
    rfl
  | case4 a b c rest ih =>
    have la := a.toNat_lt
    have lb := b.toNat_lt
    have lc := c.toNat_lt
    have first : UInt8.ofNat (((n * 64 + a.toNat / 4) * 64 + (a.toNat % 4 * 16 + b.toNat / 16)) / 2 ^ 4) = a :=
      ofNat_eq_toNat (by omega)
    have second : UInt8.ofNat ((((n * 64 + a.toNat / 4) * 64 + (a.toNat % 4 * 16 + b.toNat / 16)) * 64
        + (b.toNat % 16 * 4 + c.toNat / 64)) / 2 ^ 2) = b := ofNat_eq_toNat (by omega)
    have third : UInt8.ofNat (((((n * 64 + a.toNat / 4) * 64 + (a.toNat % 4 * 16 + b.toNat / 16)) * 64
        + (b.toNat % 16 * 4 + c.toNat / 64)) * 64 + c.toNat % 64) / 2 ^ 0) = c := ofNat_eq_toNat (by omega)
    rw [encode, loop_symbol (by omega), if_neg (by decide), loop_symbol (by omega), if_pos (by decide),
      loop_symbol (by omega), if_pos (by decide), loop_symbol (by omega), if_pos (by decide)]
    simp only [Int.toNat_natCast, Nat.reduceSub, Nat.zero_add, first, second, third, ih, List.append_assoc]
    rfl

end Base64

/-- Every loosened encoding is decoded, every foreign character before the first pad is refused, and the accumulator is as
good as one that never wraps. -/
theorem base64Decode_inverts :
    (∀ x text, Loosens text (encode x) → base64Decode text = .ok x) ∧
      (∀ front c rest, pad ∉ front → c ∉ alphabet → ¬isBlank c → c ≠ pad →
        base64Decode (front ++ c :: rest) = .error "invalid base64 character") ∧
      ∀ text, base64Decode text = exactDecode text := by
  refine ⟨?_, ?_, base64Decode_exact⟩
  · intro x text ⟨dropped, same⟩
    rw [base64Decode_exact, exactDecode, ← loop_unblanked, ← loop_padded (n := dropped), same, loop_encode, List.nil_append]
  · intro front c rest padless outside solid other
    exact loop_rejects padless ((foreign_iff c).mpr outside) solid other [] 0 0 rest

theorem base64Decode_inverts_wrapped :
    base64Decode (.ofAscii "TW Fu\nTQ =") = .ok (.ofAscii "ManM") ∧
      base64Decode (.ofAscii "TQ*=") = .error "invalid base64 character" :=
  ⟨base64Decode_inverts.1 (.ofAscii "ManM") (.ofAscii "TW Fu\nTQ =") ⟨1, by decide⟩,
    base64Decode_inverts.2.1 (.ofAscii "TQ") 0x2A [pad] (by decide) (by decide) (by decide) (by decide)⟩

end Mlxforge
