import Mlxforge.Json.Reader

/-!
What the reader reads is exactly what the grammar gives.
-/

namespace Mlxforge.Json

open Ascii

variable {float : Bytes → Option Rat}

/-! ### Values -/

/-- What is read with this much fuel is in the grammar. -/
structure Sound (float : Bytes → Option Rat) (n : Nat) : Prop where
  value : ∀ {s r v}, readValue float n s = some (v, r) → ∃ t, s = t ++ r ∧ Reads float t (.value v)
  elements : ∀ {s r vs}, readElements float n s = some (vs, r) →
    ∃ t, s = t ++ closeBracket :: r ∧ Reads float t (.elements vs)
  members : ∀ {s r ms}, readMembers float n s = some (ms, r) →
    ∃ t, s = t ++ closeBrace :: r ∧ Reads float t (.members ms)

namespace Sound

variable {n : Nat} (sound : Sound float n)

include sound

theorem readValue_succ {s r : Bytes} {v : Json} (h : readValue float (n + 1) s = some (v, r)) :
    ∃ t, s = t ++ r ∧ Reads float t (.value v) := by
  cases s with
  | nil => cases h
  | cons b s =>
    rw [readValue] at h
    split at h
    next string =>
      subst string
      obtain ⟨⟨text, r⟩, inside, same⟩ := Option.bind_eq_some_iff.mp h
      cases same
      obtain ⟨t, rfl, chars⟩ := readChars_sound inside
      exact ⟨quote :: (t ++ [quote]), by simp, .str chars⟩
    split at h
    next array =>
      subst array
      obtain ⟨w, hw, split⟩ := skipWs_split s
      split at h
      next closed =>
        cases h
        rw [expect_some] at closed
        exact ⟨openBracket :: (w ++ [closeBracket]), by rw [split, closed]; simp, .emptyArray hw⟩
      next =>
        obtain ⟨⟨vs, r⟩, inside, same⟩ := Option.bind_eq_some_iff.mp h
        cases same
        obtain ⟨t, rfl, reads⟩ := sound.elements inside
        exact ⟨openBracket :: (t ++ [closeBracket]), by simp, .array reads⟩
    split at h
    next object =>
      subst object
      obtain ⟨w, hw, split⟩ := skipWs_split s
      split at h
      next closed =>
        cases h
        rw [expect_some] at closed
        exact ⟨openBrace :: (w ++ [closeBrace]), by rw [split, closed]; simp, .emptyObject hw⟩
      next =>
        obtain ⟨⟨ms, r⟩, inside, same⟩ := Option.bind_eq_some_iff.mp h
        cases same
        obtain ⟨t, rfl, reads⟩ := sound.members inside
        exact ⟨openBrace :: (t ++ [closeBrace]), by simp, .object reads⟩
    · exact readWord_sound h

theorem readElements_succ {s r : Bytes} {vs : List Json} (h : readElements float (n + 1) s = some (vs, r)) :
    ∃ t, s = t ++ closeBracket :: r ∧ Reads float t (.elements vs) := by
  obtain ⟨w, hw, split⟩ := skipWs_split s
  rw [readElements] at h
  obtain ⟨⟨v, s'⟩, first, h⟩ := Option.bind_eq_some_iff.mp h
  obtain ⟨t, taken, reads⟩ := sound.value first
  obtain ⟨w', hw', split'⟩ := skipWs_split s'
  rw [split, taken, split']
  rcases listRest_some h with ⟨s'', vs', more, others, rfl⟩ | ⟨closed, rfl⟩
  · obtain ⟨t', rfl, reads'⟩ := sound.elements others
    rw [more]
    exact ⟨w ++ (t ++ (w' ++ comma :: t')), by simp, .elements hw reads hw' reads'⟩
  · rw [closed]
    exact ⟨w ++ (t ++ w'), by simp, .element hw reads hw'⟩

theorem readMembers_succ {s r : Bytes} {ms : List (Bytes × Json)} (h : readMembers float (n + 1) s = some (ms, r)) :
    ∃ t, s = t ++ closeBrace :: r ∧ Reads float t (.members ms) := by
  obtain ⟨w, hw, split⟩ := skipWs_split s
  rw [readMembers] at h
  obtain ⟨s₁, opened, h⟩ := Option.bind_eq_some_iff.mp h
  obtain ⟨⟨key, s₂⟩, inside, h⟩ := Option.bind_eq_some_iff.mp h
  obtain ⟨k, string, chars⟩ := readChars_sound inside
  dsimp only at h
  obtain ⟨w₁, hw₁, split₁⟩ := skipWs_split s₂
  obtain ⟨s₃, marked, h⟩ := Option.bind_eq_some_iff.mp h
  obtain ⟨w₂, hw₂, split₂⟩ := skipWs_split s₃
  obtain ⟨⟨v, s₄⟩, first, h⟩ := Option.bind_eq_some_iff.mp h
  obtain ⟨t, taken, reads⟩ := sound.value first
  obtain ⟨w₃, hw₃, split₃⟩ := skipWs_split s₄
  rw [split, expect_some.mp opened, string, split₁, expect_some.mp marked, split₂, taken, split₃]
  rcases listRest_some h with ⟨s₅, ms', more, others, rfl⟩ | ⟨closed, rfl⟩
  · obtain ⟨t', rfl, reads'⟩ := sound.members others
    rw [more]
    exact ⟨_, by simp, .members hw chars hw₁ hw₂ reads hw₃ reads'⟩
  · rw [closed]
    exact ⟨_, by simp, .member hw chars hw₁ hw₂ reads hw₃⟩

end Sound

theorem sound (n : Nat) : Sound float n := by
  induction n with
  | zero => exact ⟨nofun, nofun, nofun⟩
  | succ n ih => exact ⟨ih.readValue_succ, ih.readElements_succ, ih.readMembers_succ⟩

theorem reads_head {t : Bytes} {v : Json} (h : Reads float t (.value v)) : ∃ b s, t = b :: s ∧ isWs b = false ∧
    b ≠ closeBracket ∧ b ≠ 0xEF := by
  cases h with
  | null => exact ⟨0x6E, _, null_eq, by decide, by decide, by decide⟩
  | bool b =>
    cases b with
    | true => exact ⟨0x74, _, true_eq, by decide, by decide, by decide⟩
    | false => exact ⟨0x66, _, false_eq, by decide, by decide, by decide⟩
  | number ht =>
    obtain ⟨b, s, rfl, head⟩ := number_cons ht
    obtain ⟨solid, -⟩ := number_head head
    refine ⟨b, s, rfl, solid, ?_, ?_⟩
    · rintro rfl
      exact absurd head (by decide)
    · rintro rfl
      exact absurd head (by decide)
  | str => exact ⟨quote, _, rfl, by decide, by decide, by decide⟩
  | emptyArray | array => exact ⟨openBracket, _, rfl, by decide, by decide, by decide⟩
  | emptyObject | object => exact ⟨openBrace, _, rfl, by decide, by decide, by decide⟩

theorem skipWs_value {t : Bytes} {v : Json} (h : Reads float t (.value v)) (r : Bytes) : skipWs (t ++ r) = t ++ r := by
  obtain ⟨b, s, rfl, solid, -⟩ := reads_head h
  exact skipWs_solid solid _

/-- No container that has something in it is taken for an empty one. -/
theorem expect_elements {s : Bytes} {vs : List Json} (h : Reads float s (.elements vs)) (r : Bytes) :
    expect closeBracket (skipWs (s ++ r)) = none := by
  have first {w t : Bytes} {v : Json} (hw : Blank w) (hv : Reads float t (.value v)) (r : Bytes) :
      expect closeBracket (skipWs (w ++ (t ++ r))) = none := by
    rw [skipWs_blank hw, skipWs_value hv]
    obtain ⟨b, s, rfl, -, other, -⟩ := reads_head hv
    exact expect_other other _
  cases h with
  | element hw hv => simpa using first hw hv _
  | elements hw hv => simpa using first hw hv _

theorem expect_members {s : Bytes} {ms : List (Bytes × Json)} (h : Reads float s (.members ms)) (r : Bytes) :
    expect closeBrace (skipWs (s ++ r)) = none := by
  have first {w : Bytes} (hw : Blank w) (r : Bytes) : expect closeBrace (skipWs (w ++ quote :: r)) = none := by
    rw [skipWs_blank hw, skipWs_solid (by decide)]
    exact expect_other (by decide) r
  cases h with
  | member hw => simpa using first hw _
  | members hw => simpa using first hw _

/-- With fuel for the text, the reader takes all of it. -/
def Taken (float : Bytes → Option Rat) (t : Bytes) : Content → Prop
  | .value v => ∀ n r, t.length < n → Stops r → readValue float n (t ++ r) = some (v, r)
  | .elements vs => ∀ n r, t.length + 1 < n → readElements float n (t ++ closeBracket :: r) = some (vs, r)
  | .members ms => ∀ n r, t.length + 1 < n → readMembers float n (t ++ closeBrace :: r) = some (ms, r)

section
variable {w t w' s : Bytes} {v : Json} {vs : List Json}

/-- The first element, with a comma or the bracket behind it. -/
theorem readElements_first (hw : Blank w) (reads : Reads float t (.value v)) (hw' : Blank w')
    (value : Taken float t (.value v)) {n : Nat} (fuel : t.length < n) {c : UInt8} (solid : isWs c = false)
    (other : isNumberByte c = false) (r : Bytes) :
    readElements float (n + 1) (w ++ (t ++ (w' ++ c :: r))) =
      listRest (readElements float n) closeBracket v (c :: r) := by
  have first : readValue float n (t ++ (w' ++ c :: r)) = some (v, w' ++ c :: r) :=
    value n _ fuel (stops_blank hw' (stops_cons other r))
  rw [readElements, skipWs_blank hw, skipWs_value reads, first]
  simp only [Option.bind_eq_bind, Option.bind_some, skipWs_blank hw', skipWs_solid solid]

theorem taken_element (hw : Blank w) (reads : Reads float t (.value v)) (hw' : Blank w')
    (value : Taken float t (.value v)) : Taken float (w ++ (t ++ w')) (.elements [v]) := by
  intro n r fuel
  obtain ⟨n, rfl⟩ := Nat.exists_eq_succ_of_ne_zero (Nat.ne_zero_of_lt fuel)
  simp only [List.length_append] at fuel
  have text : w ++ (t ++ w') ++ closeBracket :: r = w ++ (t ++ (w' ++ closeBracket :: r)) := by simp
  rw [text, readElements_first hw reads hw' value (by omega) (by decide) (by decide), listRest_close (by decide)]

theorem taken_elements (hw : Blank w) (reads : Reads float t (.value v)) (hw' : Blank w')
    (value : Taken float t (.value v)) (rest : Taken float s (.elements vs)) :
    Taken float (w ++ (t ++ (w' ++ comma :: s))) (.elements (v :: vs)) := by
  intro n r fuel
  obtain ⟨n, rfl⟩ := Nat.exists_eq_succ_of_ne_zero (Nat.ne_zero_of_lt fuel)
  simp only [List.length_append, List.length_cons] at fuel
  have text : w ++ (t ++ (w' ++ comma :: s)) ++ closeBracket :: r =
      w ++ (t ++ (w' ++ comma :: (s ++ closeBracket :: r))) := by simp
  have more : readElements float n (s ++ closeBracket :: r) = some (vs, r) := rest n r (by omega)
  rw [text, readElements_first hw reads hw' value (by omega) (by decide) (by decide), listRest_comma more]

end

section
variable {w k key w₁ w₂ t w₃ s : Bytes} {v : Json} {ms : List (Bytes × Json)}

theorem readMembers_first (hw : Blank w) (hk : Chars k key) (hw₁ : Blank w₁) (hw₂ : Blank w₂)
    (reads : Reads float t (.value v)) (hw₃ : Blank w₃) (value : Taken float t (.value v)) {n : Nat}
    (fuelKey : k.length < n) (fuel : t.length < n) {c : UInt8} (solid : isWs c = false) (other : isNumberByte c = false)
    (r : Bytes) :
    readMembers float (n + 1) (w ++ quote :: (k ++ quote :: (w₁ ++ colon :: (w₂ ++ (t ++ (w₃ ++ c :: r)))))) =
      listRest (readMembers float n) closeBrace (key, v) (c :: r) := by
  have first : readValue float n (t ++ (w₃ ++ c :: r)) = some (v, w₃ ++ c :: r) :=
    value n _ fuel (stops_blank hw₃ (stops_cons other r))
  have opened (s : Bytes) : skipWs (w ++ quote :: s) = quote :: s := by
    rw [skipWs_blank hw]
    exact skipWs_solid (by decide) s
  have marked (s : Bytes) : skipWs (w₁ ++ colon :: s) = colon :: s := by
    rw [skipWs_blank hw₁]
    exact skipWs_solid (by decide) s
  rw [readMembers]
  simp only [opened, expect_self, Option.bind_eq_bind, Option.bind_some, readChars_complete hk fuelKey, marked,
    skipWs_blank hw₂, skipWs_value reads, first, skipWs_blank hw₃, skipWs_solid solid]

theorem taken_member (hw : Blank w) (hk : Chars k key) (hw₁ : Blank w₁) (hw₂ : Blank w₂)
    (reads : Reads float t (.value v)) (hw₃ : Blank w₃) (value : Taken float t (.value v)) :
    Taken float (w ++ quote :: (k ++ quote :: (w₁ ++ colon :: (w₂ ++ (t ++ w₃))))) (.members [(key, v)]) := by
  intro n r fuel
  obtain ⟨n, rfl⟩ := Nat.exists_eq_succ_of_ne_zero (Nat.ne_zero_of_lt fuel)
  simp only [List.length_append, List.length_cons] at fuel
  have text : w ++ quote :: (k ++ quote :: (w₁ ++ colon :: (w₂ ++ (t ++ w₃)))) ++ closeBrace :: r =
      w ++ quote :: (k ++ quote :: (w₁ ++ colon :: (w₂ ++ (t ++ (w₃ ++ closeBrace :: r))))) := by simp
  rw [text, readMembers_first hw hk hw₁ hw₂ reads hw₃ value (by omega) (by omega) (by decide) (by decide),
    listRest_close (by decide)]

theorem taken_members (hw : Blank w) (hk : Chars k key) (hw₁ : Blank w₁) (hw₂ : Blank w₂)
    (reads : Reads float t (.value v)) (hw₃ : Blank w₃) (value : Taken float t (.value v))
    (rest : Taken float s (.members ms)) :
    Taken float (w ++ quote :: (k ++ quote :: (w₁ ++ colon :: (w₂ ++ (t ++ (w₃ ++ comma :: s))))))
      (.members ((key, v) :: ms)) := by
  intro n r fuel
  obtain ⟨n, rfl⟩ := Nat.exists_eq_succ_of_ne_zero (Nat.ne_zero_of_lt fuel)
  simp only [List.length_append, List.length_cons] at fuel
  have text : w ++ quote :: (k ++ quote :: (w₁ ++ colon :: (w₂ ++ (t ++ (w₃ ++ comma :: s))))) ++ closeBrace :: r =
      w ++ quote :: (k ++ quote :: (w₁ ++ colon :: (w₂ ++ (t ++ (w₃ ++ comma :: (s ++ closeBrace :: r)))))) := by simp
  have more : readMembers float n (s ++ closeBrace :: r) = some (ms, r) := rest n r (by omega)
  rw [text, readMembers_first hw hk hw₁ hw₂ reads hw₃ value (by omega) (by omega) (by decide) (by decide), listRest_comma more]

end

theorem readValue_word {t : Bytes} {b : UInt8} {s : Bytes} (eq : t = b :: s)
    (other : b ≠ quote ∧ b ≠ openBracket ∧ b ≠ openBrace) (n : Nat) (r : Bytes) :
    readValue float (n + 1) (t ++ r) = readWord float (t ++ r) := by
  subst eq
  rw [List.cons_append, readValue, if_neg other.1, if_neg other.2.1, if_neg other.2.2]

theorem readValue_emptyObject {w : Bytes} (hw : Blank w) (n : Nat) (r : Bytes) :
    readValue float (n + 1) (openBrace :: (w ++ [closeBrace]) ++ r) = some (.obj [], r) := by
  have text : openBrace :: (w ++ [closeBrace]) ++ r = openBrace :: (w ++ closeBrace :: r) := by simp
  rw [text, readValue, if_neg (by decide), if_neg (by decide), if_pos rfl, skipWs_blank hw, skipWs_solid (by decide),
    expect_self]

theorem readValue_object {s : Bytes} {ms : List (Bytes × Json)} (hs : Reads float s (.members ms))
    (rest : Taken float s (.members ms)) {n : Nat} (fuel : s.length + 1 < n) (r : Bytes) :
    readValue float (n + 1) (openBrace :: (s ++ [closeBrace]) ++ r) = some (.obj (storeFields ms), r) := by
  have text : openBrace :: (s ++ [closeBrace]) ++ r = openBrace :: (s ++ closeBrace :: r) := by simp
  rw [text, readValue, if_neg (by decide), if_neg (by decide), if_pos rfl, expect_members hs, rest n r fuel]
  rfl

/-- The reader takes every text of the grammar. -/
theorem reads_taken {t : Bytes} {c : Content} (h : Reads float t c) : Taken float t c := by
  induction h with
  | element hw hv hw' value => exact taken_element hw hv hw' value
  | elements hw hv hw' _ value rest => exact taken_elements hw hv hw' value rest
  | member hw hk hw₁ hw₂ hv hw₃ value => exact taken_member hw hk hw₁ hw₂ hv hw₃ value
  | members hw hk hw₁ hw₂ hv hw₃ _ value rest => exact taken_members hw hk hw₁ hw₂ hv hw₃ value rest
  | null =>
    intro n r fuel _
    obtain ⟨n, rfl⟩ := Nat.exists_eq_succ_of_ne_zero (Nat.ne_zero_of_lt fuel)
    exact (readValue_word null_eq (by decide) n r).trans (readWord_null r)
  | bool b =>
    intro n r fuel _
    obtain ⟨n, rfl⟩ := Nat.exists_eq_succ_of_ne_zero (Nat.ne_zero_of_lt fuel)
    cases b with
    | true => exact (readValue_word true_eq (by decide) n r).trans (readWord_bool true r)
    | false => exact (readValue_word false_eq (by decide) n r).trans (readWord_bool false r)
  | number ht hv =>
    intro n r fuel stops
    obtain ⟨n, rfl⟩ := Nat.exists_eq_succ_of_ne_zero (Nat.ne_zero_of_lt fuel)
    obtain ⟨b, s, eq, head⟩ := number_cons ht
    obtain ⟨-, notQuote, notArray, notObject, -⟩ := number_head head
    exact (readValue_word eq ⟨notQuote, notArray, notObject⟩ n r).trans (readWord_number ht hv stops)
  | @str t s chars =>
    intro n r fuel _
    obtain ⟨n, rfl⟩ := Nat.exists_eq_succ_of_ne_zero (Nat.ne_zero_of_lt fuel)
    have inside : readChars n (t ++ quote :: r) = some (s, r) := readChars_complete chars (by simp at fuel; omega) r
    have text : quote :: (t ++ [quote]) ++ r = quote :: (t ++ quote :: r) := by simp
    rw [text, readValue, if_pos rfl, inside]
    rfl
  | @emptyArray w hw =>
    intro n r fuel _
    obtain ⟨n, rfl⟩ := Nat.exists_eq_succ_of_ne_zero (Nat.ne_zero_of_lt fuel)
    have text : openBracket :: (w ++ [closeBracket]) ++ r = openBracket :: (w ++ closeBracket :: r) := by simp
    rw [text, readValue, if_neg (by decide), if_pos rfl, skipWs_blank hw, skipWs_solid (by decide), expect_self]
  | @array s vs hs rest =>
    intro n r fuel _
    obtain ⟨n, rfl⟩ := Nat.exists_eq_succ_of_ne_zero (Nat.ne_zero_of_lt fuel)
    have inside : readElements float n (s ++ closeBracket :: r) = some (vs, r) := rest n r (by simp at fuel; omega)
    have text : openBracket :: (s ++ [closeBracket]) ++ r = openBracket :: (s ++ closeBracket :: r) := by simp
    rw [text, readValue, if_neg (by decide), if_pos rfl, expect_elements hs, inside]
    rfl
  | emptyObject hw =>
    intro n r fuel _
    obtain ⟨n, rfl⟩ := Nat.exists_eq_succ_of_ne_zero (Nat.ne_zero_of_lt fuel)
    exact readValue_emptyObject hw n r
  | object hs rest =>
    intro n r fuel _
    obtain ⟨n, rfl⟩ := Nat.exists_eq_succ_of_ne_zero (Nat.ne_zero_of_lt fuel)
    exact readValue_object hs rest (by simp at fuel; omega) r

/-- Whatever follows an object is left. -/
theorem object_taken {t : Bytes} {fields : List (Bytes × Json)} (h : Reads float t (.value (.obj fields))) {n : Nat}
    (fuel : t.length < n) (r : Bytes) : readValue float n (t ++ r) = some (.obj fields, r) := by
  obtain ⟨n, rfl⟩ := Nat.exists_eq_succ_of_ne_zero (Nat.ne_zero_of_lt fuel)
  generalize whole : Content.value (.obj fields) = content at h
  cases h with
  | emptyObject hw =>
    cases whole
    exact readValue_emptyObject hw n r
  | object hs =>
    cases whole
    exact readValue_object hs (reads_taken hs) (by simp at fuel; omega) r
  | number _ hv =>
    cases whole
    rcases numberValue_cases hv with ⟨i, same⟩ | ⟨x, same⟩ <;> cases same
  | _ => cases whole

/-! ### The whole text -/

theorem read_document {s : Bytes} {v : Json} (h : read float s = some v) : Document float s v := by
  unfold read at h
  dsimp only at h
  split at h
  next v' rest taken =>
    split at h
    next whole =>
      cases h
      rw [Bool.and_eq_true, List.isEmpty_iff] at whole
      obtain ⟨t, eq, reads⟩ := (sound _).value taken
      obtain ⟨w, hw, split⟩ := skipWs_split ((behind bom s).getD s)
      obtain ⟨w', hw', split'⟩ := skipWs_split rest
      rw [whole.2, List.append_nil] at split'
      have body : (behind bom s).getD s = w ++ (t ++ w') := by rw [split, eq, split']
      refine ⟨whole.1, (behind bom s).elim [] fun _ => bom, w, t, w', ?_, hw, reads, hw', ?_⟩
      · cases behind bom s with
        | none => exact .inl rfl
        | some r => exact .inr rfl
      · rw [← body]
        cases marked : behind bom s with
        | none => rfl
        | some r => exact behind_some.mp marked
    · cases h
  · cases h

/-- A value with blanks around it, and what is left behind it. -/
theorem read_leading {m w t r : Bytes} {v : Json} (hm : m = [] ∨ m = bom) (hw : Blank w) (reads : Reads float t (.value v))
    (taken : ∀ n, t.length < n → readValue float n (t ++ r) = some (v, r)) :
    read float (m ++ (w ++ (t ++ r))) =
      if Utf8.check (m ++ (w ++ (t ++ r))) && (skipWs r).isEmpty then some v else none := by
  have body : (behind bom (m ++ (w ++ (t ++ r)))).getD (m ++ (w ++ (t ++ r))) = w ++ (t ++ r) := by
    rcases hm with rfl | rfl
    · have other : behind bom (w ++ (t ++ r)) = none := by
        cases w with
        | nil =>
          obtain ⟨b, s, rfl, -, -, solid⟩ := reads_head reads
          exact behind_other solid.symm _ _
        | cons b w =>
          refine behind_other ?_ _ _
          rintro rfl
          exact absurd (hw 0xEF List.mem_cons_self) (by decide)
      rw [List.nil_append, other]
      rfl
    · rw [behind_some.mpr rfl]
      rfl
  unfold read
  dsimp only
  rw [body, skipWs_blank hw, skipWs_value reads, taken _ (by simp only [List.length_append]; omega)]

theorem document_read {s : Bytes} {v : Json} (h : Document float s v) : read float s = some v := by
  obtain ⟨valid, m, w, t, w', hm, hw, reads, hw', rfl⟩ := h
  have stops : Stops w' := by simpa using stops_blank hw' stops_nil
  have empty : skipWs w' = [] := by
    have all := skipWs_blank hw' []
    rwa [List.append_nil] at all
  rw [read_leading hm hw reads fun n fuel => reads_taken reads n w' fuel stops, valid, empty]
  rfl

/-- What is read is what the grammar gives, and so a text has one value at most. -/
theorem read_iff (s : Bytes) (v : Json) : read float s = some v ↔ Document float s v := ⟨read_document, document_read⟩

/-- A text that goes on behind an object is none. -/
theorem read_trailing {t w r : Bytes} {fields : List (Bytes × Json)} {b : UInt8}
    (reads : Reads float t (.value (.obj fields))) (hw : Blank w) (solid : isWs b = false) :
    read float (t ++ (w ++ b :: r)) = none := by
  have left : skipWs (w ++ b :: r) = b :: r := by rw [skipWs_blank hw, skipWs_solid solid]
  have all := read_leading (m := []) (w := []) (r := w ++ b :: r) (.inl rfl) nofun reads fun n fuel =>
    object_taken reads fuel _
  rw [List.nil_append, List.nil_append] at all
  rw [all, left]
  simp

end Mlxforge.Json
