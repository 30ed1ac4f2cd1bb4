import Mathlib.Tactic

/-!
UTF-8 over lists of bytes: the well-formed strings are the encodings of character lists, `check` decides them, and a
prefix of a well-formed string ends inside at most one character.
-/

abbrev Bytes := List UInt8

/-- The bytes of an ASCII text. -/
def Bytes.ofAscii (s : String) : Bytes := s.toList.map fun c => UInt8.ofNat c.toNat

namespace Utf8

open String (utf8EncodeChar)

def encode (cs : List Char) : Bytes := cs.flatMap utf8EncodeChar

def Valid (s : Bytes) : Prop := ∃ cs, s = encode cs

/-- `10xxxxxx`. -/
def Tail (b : UInt8) : Prop := 0x80 ≤ b.toNat ∧ b.toNat ≤ 0xBF

instance (b : UInt8) : Decidable (Tail b) := inferInstanceAs (Decidable (_ ∧ _))

/-- What may follow the lead byte of a character of three or four bytes: overlong forms, surrogates and values above
the last character are cut off here. -/
def Second (lead b : UInt8) : Prop :=
  Tail b ∧ (lead.toNat = 0xE0 → 0xA0 ≤ b.toNat) ∧ (lead.toNat = 0xED → b.toNat ≤ 0x9F) ∧
    (lead.toNat = 0xF0 → 0x90 ≤ b.toNat) ∧ (lead.toNat = 0xF4 → b.toNat ≤ 0x8F)

instance (lead b : UInt8) : Decidable (Second lead b) := inferInstanceAs (Decidable (_ ∧ _))

def check : Bytes → Bool
  | [] => true
  | a :: rest =>
    if a.toNat < 0x80 then check rest
    else if 0xC2 ≤ a.toNat ∧ a.toNat ≤ 0xDF then
      match rest with
      | b :: rest => Tail b && check rest
      | _ => false
    else if 0xE0 ≤ a.toNat ∧ a.toNat ≤ 0xEF then
      match rest with
      | b :: c :: rest => Second a b && Tail c && check rest
      | _ => false
    else if 0xF0 ≤ a.toNat ∧ a.toNat ≤ 0xF4 then
      match rest with
      | b :: c :: d :: rest => Second a b && Tail c && Tail d && check rest
      | _ => false
    else false

@[simp] theorem encode_nil : encode [] = [] := rfl

@[simp] theorem encode_cons (c : Char) (cs : List Char) : encode (c :: cs) = utf8EncodeChar c ++ encode cs := rfl

@[simp] theorem encode_append (cs ds : List Char) : encode (cs ++ ds) = encode cs ++ encode ds := List.flatMap_append

theorem valid_nil : Valid [] := ⟨[], rfl⟩

theorem Valid.append {s t : Bytes} (hs : Valid s) (ht : Valid t) : Valid (s ++ t) := by
  obtain ⟨cs, rfl⟩ := hs
  obtain ⟨ds, rfl⟩ := ht
  exact ⟨cs ++ ds, (encode_append cs ds).symm⟩

theorem Valid.flatten {ss : List Bytes} (h : ∀ s ∈ ss, Valid s) : Valid ss.flatten := by
  induction ss with
  | nil => exact valid_nil
  | cons s ss ih =>
    rw [List.flatten_cons]
    exact (h s List.mem_cons_self).append (ih fun s hs => h s (List.mem_cons_of_mem _ hs))

/-! ### The bytes of one character -/

/-- The bytes of a character, by its length. -/
theorem encodeChar_cases (c : Char) :
    (∃ a, utf8EncodeChar c = [a] ∧ a.toNat < 0x80) ∨
    (∃ a b, utf8EncodeChar c = [a, b] ∧ (0xC2 ≤ a.toNat ∧ a.toNat ≤ 0xDF) ∧ Tail b) ∨
    (∃ a b d, utf8EncodeChar c = [a, b, d] ∧ (0xE0 ≤ a.toNat ∧ a.toNat ≤ 0xEF) ∧ Second a b ∧ Tail d) ∨
    (∃ a b d e, utf8EncodeChar c = [a, b, d, e] ∧ (0xF0 ≤ a.toNat ∧ a.toNat ≤ 0xF4) ∧ Second a b ∧ Tail d ∧ Tail e) := by
  have valid : c.val.toNat < 0xD800 ∨ (0xDFFF < c.val.toNat ∧ c.val.toNat < 0x110000) := c.valid
  simp only [utf8EncodeChar]
  generalize c.val.toNat = v at valid
  split
  · exact .inl ⟨_, rfl, by simp; omega⟩
  split
  · refine .inr (.inl ⟨_, _, rfl, ?_, ?_⟩) <;> simp [Tail] <;> omega
  split
  · refine .inr (.inr (.inl ⟨_, _, _, rfl, ?_, ?_, ?_⟩)) <;> simp [Tail, Second] <;> omega
  · refine .inr (.inr (.inr ⟨_, _, _, _, rfl, ?_, ?_, ?_, ?_⟩)) <;> simp [Tail, Second] <;> omega

theorem check_encodeChar_append (c : Char) (s : Bytes) : check (utf8EncodeChar c ++ s) = check s := by
  obtain ⟨a, eq, ha⟩ | ⟨a, b, eq, ha, hb⟩ | ⟨a, b, d, eq, ha, hb, hd⟩ | ⟨a, b, d, e, eq, ha, hb, hd, he⟩ :=
    encodeChar_cases c
  · rw [eq, List.singleton_append]
    conv_lhs => unfold check
    rw [if_pos ha]
  · simp only [eq, List.cons_append, List.nil_append, check]
    rw [if_neg (by omega), if_pos ha]
    simp [hb]
  · simp only [eq, List.cons_append, List.nil_append, check]
    rw [if_neg (by omega), if_neg (by omega), if_pos ha]
    simp [hb, hd]
  · simp only [eq, List.cons_append, List.nil_append, check]
    rw [if_neg (by omega), if_neg (by omega), if_neg (by omega), if_pos ha]
    simp [hb, hd, he]

theorem check_encode (cs : List Char) : check (encode cs) = true := by
  induction cs with
  | nil => rfl
  | cons c cs ih => rw [encode_cons, check_encodeChar_append, ih]

/-! ### The character of well-formed bytes -/

theorem exists_char {v : Nat} (scalar : v < 0xD800 ∨ (0xDFFF < v ∧ v < 0x110000)) : ∃ c : Char, c.val.toNat = v := by
  have small : (UInt32.ofNat v).toNat = v := UInt32.toNat_ofNat_of_lt' (show v < 2 ^ 32 by omega)
  exact ⟨⟨UInt32.ofNat v, by rw [UInt32.isValidChar, small]; exact scalar⟩, small⟩

theorem ofNat_eq {n : Nat} {b : UInt8} (h : n = b.toNat) : UInt8.ofNat n = b := by rw [h, UInt8.ofNat_toNat]

theorem exists_one {a : UInt8} (ha : a.toNat < 0x80) : ∃ c, utf8EncodeChar c = [a] := by
  obtain ⟨c, value⟩ := exists_char (v := a.toNat) (by omega)
  refine ⟨c, ?_⟩
  simp only [utf8EncodeChar, value]
  rw [if_pos (by omega), UInt8.ofNat_toNat]

theorem exists_two {a b : UInt8} (ha : 0xC2 ≤ a.toNat ∧ a.toNat ≤ 0xDF) (hb : Tail b) :
    ∃ c, utf8EncodeChar c = [a, b] := by
  unfold Tail at hb
  obtain ⟨c, value⟩ := exists_char (v := (a.toNat - 0xC0) * 64 + (b.toNat - 0x80)) (by omega)
  refine ⟨c, ?_⟩
  simp only [utf8EncodeChar, value]
  rw [if_neg (by omega), if_pos (by omega), ofNat_eq (b := a) (by omega), ofNat_eq (b := b) (by omega)]

theorem exists_three {a b d : UInt8} (ha : 0xE0 ≤ a.toNat ∧ a.toNat ≤ 0xEF) (hb : Second a b) (hd : Tail d) :
    ∃ c, utf8EncodeChar c = [a, b, d] := by
  obtain ⟨tail, e0, ed, _, _⟩ := hb
  unfold Tail at tail hd
  obtain ⟨c, value⟩ := exists_char
    (v := (a.toNat - 0xE0) * 4096 + (b.toNat - 0x80) * 64 + (d.toNat - 0x80)) (by omega)
  refine ⟨c, ?_⟩
  simp only [utf8EncodeChar, value]
  rw [if_neg (by omega), if_neg (by omega), if_pos (by omega), ofNat_eq (b := a) (by omega),
    ofNat_eq (b := b) (by omega), ofNat_eq (b := d) (by omega)]

theorem exists_four {a b d e : UInt8} (ha : 0xF0 ≤ a.toNat ∧ a.toNat ≤ 0xF4) (hb : Second a b) (hd : Tail d)
    (he : Tail e) : ∃ c, utf8EncodeChar c = [a, b, d, e] := by
  obtain ⟨tail, _, _, f0, f4⟩ := hb
  unfold Tail at tail hd he
  obtain ⟨c, value⟩ := exists_char
    (v := (a.toNat - 0xF0) * 262144 + (b.toNat - 0x80) * 4096 + (d.toNat - 0x80) * 64 + (e.toNat - 0x80)) (by omega)
  refine ⟨c, ?_⟩
  simp only [utf8EncodeChar, value]
  rw [if_neg (by omega), if_neg (by omega), if_neg (by omega), ofNat_eq (b := a) (by omega),
    ofNat_eq (b := b) (by omega), ofNat_eq (b := d) (by omega), ofNat_eq (b := e) (by omega)]

theorem Valid.cons {c : Char} {s t : Bytes} (eq : utf8EncodeChar c = s) (valid : Valid t) : Valid (s ++ t) := by
  obtain ⟨cs, rfl⟩ := valid
  exact ⟨c :: cs, by rw [encode_cons, eq]⟩

/-- The check accepts exactly the encodings of characters. -/
theorem check_iff (s : Bytes) : check s = true ↔ Valid s := by
  constructor
  · intro ok
    fun_induction check s with
    | case1 => exact valid_nil
    | case2 a rest ha ih =>
      obtain ⟨c, eq⟩ := exists_one ha
      exact .cons eq (ih ok)
    | case3 a _ ha b rest ih =>
      simp only [Bool.and_eq_true, decide_eq_true_eq] at ok
      obtain ⟨c, eq⟩ := exists_two ha ok.1
      exact .cons eq (ih ok.2)
    | case5 a _ _ ha b d rest ih =>
      simp only [Bool.and_eq_true, decide_eq_true_eq] at ok
      obtain ⟨c, eq⟩ := exists_three ha ok.1.1 ok.1.2
      exact .cons eq (ih ok.2)
    | case7 a _ _ _ ha b d e rest ih =>
      simp only [Bool.and_eq_true, decide_eq_true_eq] at ok
      obtain ⟨c, eq⟩ := exists_four ha ok.1.1.1 ok.1.1.2 ok.1.2
      exact .cons eq (ih ok.2)
    | _ => cases ok
  · rintro ⟨cs, rfl⟩
    exact check_encode cs

instance (s : Bytes) : Decidable (Valid s) := decidable_of_iff _ (check_iff s)

/-! ### Prefixes -/

theorem check_encode_append (cs : List Char) (s : Bytes) : check (encode cs ++ s) = check s := by
  induction cs with
  | nil => rfl
  | cons c cs ih => rw [encode_cons, List.append_assoc, check_encodeChar_append, ih]

/-- What follows whole characters is whole characters. -/
theorem Valid.of_append {s t : Bytes} (whole : Valid (s ++ t)) (valid : Valid s) : Valid t := by
  obtain ⟨cs, rfl⟩ := valid
  rwa [← check_iff, check_encode_append, check_iff] at whole

/-- A text that ends inside well-formed text is whole characters and the beginning of at most one more. -/
theorem cut_cases {s t : Bytes} {cs : List Char} (h : s ++ t = encode cs) :
    (∃ ds, s = encode ds) ∨ ∃ ds c r a, s = encode ds ++ r ∧ utf8EncodeChar c = r ++ a ∧ r ≠ [] ∧ a ≠ [] := by
  induction cs generalizing s with
  | nil => exact .inl ⟨[], (List.append_eq_nil_iff.mp h).1⟩
  | cons c cs ih =>
    rw [encode_cons, List.append_eq_append_iff] at h
    obtain ⟨a, split, -⟩ | ⟨s', rfl, rest⟩ := h
    · by_cases none : s = []
      · exact .inl ⟨[], none⟩
      by_cases whole : a = []
      · exact .inl ⟨[c], by simp [split, whole]⟩
      · exact .inr ⟨[], c, s, a, rfl, split, none, whole⟩
    · obtain ⟨ds, rfl⟩ | ⟨ds, d, r, a, rfl, split, begun, open'⟩ := ih rest.symm
      · exact .inl ⟨c :: ds, rfl⟩
      · exact .inr ⟨c :: ds, d, r, a, by simp, split, begun, open'⟩

end Utf8
