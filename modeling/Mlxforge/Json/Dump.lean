import Mlxforge.Json.Value

/-!
When a value can be serialized: exactly if all its strings are UTF-8, and the text is UTF-8 again.
-/

namespace Mlxforge

open Utf8 (Valid)
open String (utf8EncodeChar)

namespace Utf8Text

theorem valid_ascii {s : Bytes} (h : ∀ b ∈ s, b.toNat < 0x80) : Valid s := by
  induction s with
  | nil => exact Utf8.valid_nil
  | cons b s ih =>
    obtain ⟨c, eq⟩ := Utf8.exists_one (h b List.mem_cons_self)
    exact .cons eq (ih fun b hb => h b (List.mem_cons_of_mem _ hb))

theorem valid_of_chars {s : String} (h : ∀ c ∈ s.toList, c.toNat < 0x80) : Valid (Bytes.ofAscii s) := by
  apply valid_ascii
  intro b hb
  obtain ⟨c, hc, rfl⟩ := List.mem_map.mp hb
  have small := h c hc
  rw [UInt8.toNat_ofNat_of_lt' (show c.toNat < 2 ^ 8 by omega)]
  exact small

theorem valid_ofAscii {s : String} (h : (s.toList.all fun c => decide (c.toNat < 0x80)) = true) :
    Valid (Bytes.ofAscii s) := by
  apply valid_of_chars
  intro c hc
  simpa using List.all_eq_true.mp h c hc

theorem check_ofAscii {s : String} (h : (s.toList.all fun c => decide (c.toNat < 0x80)) = true) :
    Utf8.check (Bytes.ofAscii s) = true :=
  (Utf8.check_iff _).mpr (valid_ofAscii h)

theorem digits_ascii {n : Nat} {c : Char} (h : c ∈ (toString n).toList) : c.toNat < 0x80 := by
  have digits : (toString n).toList = Nat.toDigits 10 n := by simp [toString, Nat.repr]
  rw [digits] at h
  have digit := Char.isDigit_iff_toNat.mp (Nat.isDigit_of_mem_toDigits (by decide) (by decide) h)
  exact Nat.lt_of_le_of_lt digit.2 (by decide)

/-- An ASCII text with a number behind it. -/
theorem valid_tagged (tag : String) (n : Nat) (h : (tag.toList.all fun c => decide (c.toNat < 0x80)) = true) :
    Valid (Bytes.ofAscii (tag ++ toString n)) := by
  apply valid_of_chars
  intro c hc
  rw [String.toList_append, List.mem_append] at hc
  rcases hc with hc | hc
  · simpa using List.all_eq_true.mp h c hc
  · exact digits_ascii hc

theorem valid_decimal (n : Nat) : Valid (Bytes.ofAscii (toString n)) := valid_of_chars fun _ => digits_ascii

theorem valid_intDecimal (i : Int) : Valid (Bytes.ofAscii (toString i)) := by
  cases i with
  | ofNat n => exact valid_decimal n
  | negSucc n =>
    have sign : toString (Int.negSucc n) = "-" ++ toString (n + 1) := rfl
    rw [sign]
    exact valid_tagged "-" (n + 1) (by decide)

end Utf8Text

namespace Json

mutual

/-- All strings in it are UTF-8. -/
def clean : Json → Bool
  | .str s => Utf8.check s
  | .arr items => cleanItems items
  | .obj fields => cleanFields fields
  | _ => true

def cleanItems : List Json → Bool
  | [] => true
  | j :: rest => clean j && cleanItems rest

def cleanFields : List (Bytes × Json) → Bool
  | [] => true
  | (key, j) :: rest => Utf8.check key && clean j && cleanFields rest

end

theorem cleanItems_eq (items : List Json) : cleanItems items = items.all clean := by
  induction items with
  | nil => rfl
  | cons j items ih => rw [cleanItems, ih, List.all_cons]

theorem escape_high {b : UInt8} (h : 0x80 ≤ b.toNat) : escape b = [b] := by
  have ne (n : UInt8) (small : n.toNat < 0x80) : b ≠ n := by
    rintro rfl
    omega
  have large : ¬b ≤ 0x1F := by
    rw [UInt8.le_iff_toNat_le]
    exact Nat.not_le.mpr (Nat.lt_of_lt_of_le (by decide) h)
  simp [escape, ne, large]

theorem valid_escape {b : UInt8} (h : b.toNat < 0x80) : Valid (escape b) := by
  have all : ∀ n < 0x80, Utf8.check (escape (UInt8.ofNat n)) = true := by decide +kernel
  rw [← UInt8.ofNat_toNat (x := b), ← Utf8.check_iff]
  exact all b.toNat h

/-- The bytes of a longer character are not touched. -/
theorem flatMap_escape_high {s : Bytes} (h : ∀ b ∈ s, 0x80 ≤ b.toNat) : s.flatMap escape = s := by
  induction s with
  | nil => rfl
  | cons b s ih =>
    rw [List.flatMap_cons, escape_high (h b List.mem_cons_self), ih fun b hb => h b (List.mem_cons_of_mem _ hb),
      List.singleton_append]

theorem valid_flatMap_escape {s : Bytes} (h : Valid s) : Valid (s.flatMap escape) := by
  obtain ⟨cs, rfl⟩ := h
  induction cs with
  | nil => exact Utf8.valid_nil
  | cons c cs ih =>
    rw [Utf8.encode_cons, List.flatMap_append]
    refine .append ?_ ih
    have whole : Valid (utf8EncodeChar c) := ⟨[c], by simp⟩
    obtain ⟨a, eq, ha⟩ | ⟨a, b, eq, ha, hb⟩ | ⟨a, b, d, eq, ha, hb, hd⟩ | ⟨a, b, d, e, eq, ha, hb, hd, he⟩ :=
      Utf8.encodeChar_cases c
    · rw [eq, List.flatMap_singleton]
      exact valid_escape ha
    all_goals
      unfold Utf8.Second at *
      unfold Utf8.Tail at *
      rw [flatMap_escape_high]
      · exact whole
      · simp only [eq, List.mem_cons, List.not_mem_nil, or_false, forall_eq_or_imp, forall_eq]
        omega

theorem valid_dumpString {s : Bytes} (h : Utf8.check s = true) : ∃ t, dumpString s = .ok t ∧ Valid t := by
  have valid := (Utf8.check_iff s).mp h
  refine ⟨_, if_pos h, ?_⟩
  exact .append (s := [0x22]) (by decide) (.append (valid_flatMap_escape valid) (by decide))

/-! ### The whole value -/

theorem mem_intersperse {α : Type} {sep x : α} {l : List α} (h : x ∈ l.intersperse sep) : x = sep ∨ x ∈ l := by
  induction l with
  | nil => cases h
  | cons y l ih =>
    cases l with
    | nil => exact .inr h
    | cons z l =>
      rw [List.intersperse_cons_cons, List.mem_cons, List.mem_cons] at h
      rcases h with rfl | rfl | h
      · exact .inr List.mem_cons_self
      · exact .inl rfl
      · exact (ih h).imp_right (List.mem_cons_of_mem _)

theorem valid_bracketed {items : List Bytes} (h : ∀ t ∈ items, Valid t) {a b : UInt8} (ha : a.toNat < 0x80)
    (hb : b.toNat < 0x80) : Valid (a :: (items.intersperse [0x2C]).flatten ++ [b]) := by
  have single {c : UInt8} (hc : c.toNat < 0x80) : Valid [c] := Utf8Text.valid_ascii (by simpa using hc)
  refine .append (.append (s := [a]) (single ha) (.flatten fun t ht => ?_)) (single hb)
  rcases mem_intersperse ht with rfl | ht
  · exact single (by decide)
  · exact h t ht

variable {num : Rat → Bytes}

mutual

/-- A value is serialized to UTF-8, or refused for a string that is not UTF-8. -/
theorem dump_spec (ascii : ∀ x, Valid (num x)) (j : Json) :
    (clean j = true → ∃ t, dump num j = .ok t ∧ Valid t) ∧ (clean j = false → dump num j = .error .type) := by
  cases j with
  | null => exact ⟨fun _ => ⟨_, rfl, by decide⟩, nofun⟩
  | bool b => exact ⟨fun _ => ⟨_, rfl, by cases b <;> decide⟩, nofun⟩
  | int i => exact ⟨fun _ => ⟨_, rfl, Utf8Text.valid_intDecimal i⟩, nofun⟩
  | float x => exact ⟨fun _ => ⟨_, rfl, ascii x⟩, nofun⟩
  | str s => exact ⟨valid_dumpString, fun h => if_neg (by simpa [clean] using h)⟩
  | arr items =>
    obtain ⟨good, bad⟩ := dumpItems_spec ascii items
    refine ⟨fun h => ?_, fun h => ?_⟩
    · obtain ⟨texts, ok, valid⟩ := good h
      exact ⟨0x5B :: (texts.intersperse [0x2C]).flatten ++ [0x5D], by rw [dump, ok]; rfl,
        valid_bracketed valid (by decide) (by decide)⟩
    · rw [dump, bad h]
      rfl
  | obj fields =>
    obtain ⟨good, bad⟩ := dumpFields_spec ascii fields
    refine ⟨fun h => ?_, fun h => ?_⟩
    · obtain ⟨texts, ok, valid⟩ := good h
      exact ⟨0x7B :: (texts.intersperse [0x2C]).flatten ++ [0x7D], by rw [dump, ok]; rfl,
        valid_bracketed valid (by decide) (by decide)⟩
    · rw [dump, bad h]
      rfl

theorem dumpItems_spec (ascii : ∀ x, Valid (num x)) (items : List Json) :
    (cleanItems items = true → ∃ ts, dumpItems num items = .ok ts ∧ ∀ t ∈ ts, Valid t) ∧
      (cleanItems items = false → dumpItems num items = .error .type) := by
  cases items with
  | nil => exact ⟨fun _ => ⟨[], rfl, by simp⟩, nofun⟩
  | cons j rest =>
    obtain ⟨goodHead, badHead⟩ := dump_spec ascii j
    obtain ⟨goodRest, badRest⟩ := dumpItems_spec ascii rest
    refine ⟨fun h => ?_, fun h => ?_⟩
    · simp only [cleanItems, Bool.and_eq_true] at h
      obtain ⟨t, ok, valid⟩ := goodHead h.1
      obtain ⟨ts, oks, valids⟩ := goodRest h.2
      exact ⟨t :: ts, by rw [dumpItems, ok, oks]; rfl, by simpa [valid] using valids⟩
    · rw [dumpItems]
      cases hj : clean j with
      | false =>
        rw [badHead hj]
        rfl
      | true =>
        obtain ⟨t, ok, -⟩ := goodHead hj
        have hr : cleanItems rest = false := by simpa [cleanItems, hj] using h
        rw [ok, badRest hr]
        rfl

theorem dumpFields_spec (ascii : ∀ x, Valid (num x)) (fields : List (Bytes × Json)) :
    (cleanFields fields = true → ∃ ts, dumpFields num fields = .ok ts ∧ ∀ t ∈ ts, Valid t) ∧
      (cleanFields fields = false → dumpFields num fields = .error .type) := by
  cases fields with
  | nil => exact ⟨fun _ => ⟨[], rfl, by simp⟩, nofun⟩
  | cons field rest =>
    obtain ⟨key, j⟩ := field
    obtain ⟨goodHead, badHead⟩ := dump_spec ascii j
    obtain ⟨goodRest, badRest⟩ := dumpFields_spec ascii rest
    refine ⟨fun h => ?_, fun h => ?_⟩
    · simp only [cleanFields, Bool.and_eq_true] at h
      obtain ⟨k, okKey, validKey⟩ := valid_dumpString h.1.1
      obtain ⟨t, ok, valid⟩ := goodHead h.1.2
      obtain ⟨ts, oks, valids⟩ := goodRest h.2
      refine ⟨(k ++ 0x3A :: t) :: ts, by rw [dumpFields, okKey, ok, oks]; rfl, ?_⟩
      have field : Valid (k ++ 0x3A :: t) := validKey.append (.append (s := [0x3A]) (by decide) valid)
      simpa [field] using valids
    · rw [dumpFields]
      cases hk : Utf8.check key with
      | false =>
        have bad : dumpString key = .error .type := if_neg (by simp [hk])
        rw [bad]
        rfl
      | true =>
        obtain ⟨k, okKey, -⟩ := valid_dumpString hk
        cases hj : clean j with
        | false =>
          rw [okKey, badHead hj]
          rfl
        | true =>
          obtain ⟨t, ok, -⟩ := goodHead hj
          have hr : cleanFields rest = false := by simpa [cleanFields, hk, hj] using h
          rw [okKey, ok, badRest hr]
          rfl

end

end Json

end Mlxforge
