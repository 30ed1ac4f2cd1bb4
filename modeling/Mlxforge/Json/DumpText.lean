import Mlxforge.Json.NumberText

/-!
The text of `dump` stands for the value it was written from.
-/

namespace Mlxforge.Json

open Ascii

theorem readChar_escape (b : UInt8) : readChar (escape b) = some ([b], []) := by
  have all : ∀ n < 256, readChar (escape (UInt8.ofNat n)) = some ([UInt8.ofNat n], []) := by decide +kernel
  rw [← UInt8.ofNat_toNat (x := b)]
  exact all b.toNat b.toNat_lt

theorem chars_escape (s : Bytes) : Chars (s.flatMap escape) s := by
  induction s with
  | nil => exact .nil
  | cons b s ih => exact .cons (readChar_escape b) ih

theorem dumpString_chars {s t : Bytes} (h : dumpString s = .ok t) : ∃ k, t = quote :: (k ++ [quote]) ∧ Chars k s := by
  unfold dumpString at h
  split at h
  · cases h
    exact ⟨s.flatMap escape, rfl, chars_escape s⟩
  · cases h

/-! ### Objects -/

theorem insertField_last {key : Bytes} {v : Json} {fields : List (Bytes × Json)} (h : ∀ f ∈ fields, f.1 < key) :
    insertField key v fields = fields ++ [(key, v)] := by
  induction fields with
  | nil => rfl
  | cons f fields ih =>
    rw [List.forall_mem_cons] at h
    have other : ¬key = f.1 := fun same => List.lt_irrefl f.1 (same ▸ h.1)
    have later : ¬key < f.1 := List.lt_asymm h.1
    rw [insertField, if_neg other, if_neg later, ih h.2]
    rfl

/-- Members that are ordered already are stored as they come. -/
theorem storeFields_ordered {ms : List (Bytes × Json)} (ordered : ms.Pairwise (·.1 < ·.1)) : storeFields ms = ms := by
  have front (ms fields : List (Bytes × Json)) (ordered : (fields ++ ms).Pairwise (·.1 < ·.1)) :
      ms.foldl (fun fields m => insertField m.1 m.2 fields) fields = fields ++ ms := by
    induction ms generalizing fields with
    | nil => exact (List.append_nil fields).symm
    | cons m ms ih =>
      have before := (List.pairwise_append.mp ordered).2.2
      have last : insertField m.1 m.2 fields = fields ++ [m] :=
        insertField_last fun f hf => before f hf m List.mem_cons_self
      rw [List.foldl_cons, last, ih]
      · rw [List.append_assoc, List.singleton_append]
      · rwa [List.append_assoc, List.singleton_append]
  exact front ms [] ordered

/-! ### The whole value -/

variable {num : Rat → Bytes} {float : Bytes → Option Rat}

/-- The number that is written is read back: a text with a fraction or an exponent, and of the same value. -/
def WritesFloat (num : Rat → Bytes) (float : Bytes → Option Rat) : Prop :=
  ∀ x t, float t = some x → num x ∈ JsonText.number ∧ intValue (num x) = none ∧ float (num x) = some x

theorem blank_nil : Blank [] := nofun

theorem Reads.element_alone {t : Bytes} {v : Json} (h : Reads float t (.value v)) : Reads float t (.elements [v]) := by
  simpa using Reads.element blank_nil h blank_nil

theorem Reads.elements_compact {t s : Bytes} {v : Json} {vs : List Json} (h : Reads float t (.value v))
    (hs : Reads float s (.elements vs)) : Reads float (t ++ comma :: s) (.elements (v :: vs)) := by
  simpa using Reads.elements blank_nil h blank_nil hs

theorem Reads.member_alone {k key t : Bytes} {v : Json} (hk : Chars k key) (h : Reads float t (.value v)) :
    Reads float (quote :: (k ++ quote :: colon :: t)) (.members [(key, v)]) := by
  simpa using Reads.member blank_nil hk blank_nil blank_nil h blank_nil

theorem Reads.members_compact {k key t s : Bytes} {v : Json} {ms : List (Bytes × Json)} (hk : Chars k key)
    (h : Reads float t (.value v)) (hs : Reads float s (.members ms)) :
    Reads float (quote :: (k ++ quote :: colon :: (t ++ comma :: s))) (.members ((key, v) :: ms)) := by
  simpa using Reads.members blank_nil hk blank_nil blank_nil h blank_nil hs

mutual

theorem reads_dump (writes : WritesFloat num float) {j : Json} {t : Bytes} (stored : Stored float j)
    (h : dump num j = .ok t) : Reads float t (.value j) := by
  cases j with
  | null =>
    cases h
    exact .null
  | bool b =>
    cases h
    exact .bool b
  | int i =>
    cases h
    cases stored with
    | int range =>
      refine .number ((isNumber_iff _).mp (intText i).1) ?_
      unfold numberValue
      rw [(intText i).2]
      exact if_pos range
  | float x =>
    cases h
    cases stored with
    | float read =>
      obtain ⟨number, noInt, again⟩ := writes x _ read
      refine .number number ?_
      unfold numberValue
      rw [noInt, again]
      rfl
  | str s =>
    obtain ⟨k, rfl, chars⟩ := dumpString_chars h
    exact .str chars
  | arr items =>
    obtain ⟨texts, ok, same⟩ := bind_ok h
    cases pure_ok same
    cases stored with
    | arr each =>
      cases items with
      | nil =>
        cases ok
        exact .emptyArray blank_nil
      | cons v vs => exact .array (reads_dumpItems writes each (by simp) ok)
  | obj fields =>
    obtain ⟨texts, ok, same⟩ := bind_ok h
    cases pure_ok same
    cases stored with
    | obj keys each =>
      cases fields with
      | nil =>
        cases ok
        exact .emptyObject blank_nil
      | cons m ms =>
        have object := Reads.object (reads_dumpFields writes each (by simp) ok)
        rwa [storeFields_ordered keys] at object

theorem reads_dumpItems (writes : WritesFloat num float) {items : List Json} {texts : List Bytes}
    (stored : ∀ v ∈ items, Stored float v) (some : items ≠ []) (h : dumpItems num items = .ok texts) :
    Reads float (texts.intersperse [0x2C]).flatten (.elements items) := by
  cases items with
  | nil => exact absurd rfl some
  | cons v vs =>
    rw [List.forall_mem_cons] at stored
    obtain ⟨text, ok, h⟩ := bind_ok h
    obtain ⟨rest, oks, same⟩ := bind_ok h
    cases pure_ok same
    have first := reads_dump writes stored.1 ok
    cases vs with
    | nil =>
      cases oks
      simpa using first.element_alone
    | cons v' vs =>
      have more := reads_dumpItems writes stored.2 (by simp) oks
      cases rest with
      | nil =>
        obtain ⟨_, -, oks⟩ := bind_ok oks
        obtain ⟨_, -, oks⟩ := bind_ok oks
        cases oks
      | cons text' rest =>
        rw [List.intersperse_cons_cons, List.flatten_cons, List.flatten_cons]
        exact first.elements_compact more

theorem reads_dumpFields (writes : WritesFloat num float) {fields : List (Bytes × Json)} {texts : List Bytes}
    (stored : ∀ f ∈ fields, Stored float f.2) (some : fields ≠ []) (h : dumpFields num fields = .ok texts) :
    Reads float (texts.intersperse [0x2C]).flatten (.members fields) := by
  cases fields with
  | nil => exact absurd rfl some
  | cons f fs =>
    obtain ⟨key, v⟩ := f
    rw [List.forall_mem_cons] at stored
    obtain ⟨keyText, okKey, h⟩ := bind_ok h
    obtain ⟨text, ok, h⟩ := bind_ok h
    obtain ⟨rest, oks, same⟩ := bind_ok h
    cases pure_ok same
    obtain ⟨k, rfl, chars⟩ := dumpString_chars okKey
    have first := reads_dump writes stored.1 ok
    cases fs with
    | nil =>
      cases oks
      simpa using first.member_alone chars
    | cons f' fs =>
      have more := reads_dumpFields writes stored.2 (by simp) oks
      cases rest with
      | nil =>
        obtain ⟨_, -, oks⟩ := bind_ok oks
        obtain ⟨_, -, oks⟩ := bind_ok oks
        obtain ⟨_, -, oks⟩ := bind_ok oks
        cases oks
      | cons text' rest =>
        rw [List.intersperse_cons_cons, List.flatten_cons, List.flatten_cons]
        simpa using first.members_compact chars more

end

end Mlxforge.Json
