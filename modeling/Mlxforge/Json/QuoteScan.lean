import Mlxforge.Json.Texts
import Mlxforge.Json.NumberText

/-!
A text read only for its quotes. Cut inside a string, what follows the cut is read with outside and inside exchanged, so
no key of an object is found in it.
-/

namespace Mlxforge.Json

open Ascii

/-- The byte that parts a list of objects. -/
abbrev semicolon : UInt8 := 0x3B

inductive Quoting where
  | outside | inside | escaped
  /-- Just behind a string. -/
  | closed
  deriving DecidableEq, Repr

/-- The bytes that may follow a string. -/
def isStructural (b : UInt8) : Bool := b == comma || b == colon || b == closeBracket || b == closeBrace

namespace Quoting

def step (q : Quoting) (b : UInt8) : Option Quoting :=
  match q with
  | .outside =>
    if b = quote then some .inside else if b = backslash ∨ b = semicolon ∨ b = 0 then none else some .outside
  | .inside =>
    if b = quote then some .closed else if b = backslash then some .escaped else if b < 0x20 then none else some .inside
  | .escaped => if isEscape b || b == 0x75 then some .inside else none
  | .closed => if isWs b || isStructural b then some .outside else none

def scan (q : Quoting) (s : Bytes) : Option Quoting := s.foldlM step q

def Between (q : Quoting) : Prop := q = .outside ∨ q = .closed

theorem scan_cons (q : Quoting) (b : UInt8) (s : Bytes) : scan q (b :: s) = (step q b).bind fun q => scan q s := rfl

theorem scan_append (q : Quoting) (s t : Bytes) : scan q (s ++ t) = (scan q s).bind fun q => scan q t :=
  List.foldlM_append

theorem scan_append_some {q q' : Quoting} {s t : Bytes} :
    scan q (s ++ t) = some q' ↔ ∃ r, scan q s = some r ∧ scan r t = some q' := by
  rw [scan_append, Option.bind_eq_some_iff]

theorem scan_cons_some {q q' : Quoting} {b : UInt8} {s : Bytes} :
    scan q (b :: s) = some q' ↔ ∃ r, step q b = some r ∧ scan r s = some q' := by
  rw [scan_cons, Option.bind_eq_some_iff]

/-- The text leads to a place between strings. -/
def Rests (q : Quoting) (s : Bytes) : Prop := ∃ r, scan q s = some r ∧ r.Between

/-! ### Single bytes -/

theorem step_quote : step .outside quote = some .inside := rfl

theorem step_unquote : step .inside quote = some .closed := rfl

theorem ws_cases {b : UInt8} (h : isWs b = true) : b = 0x20 ∨ b = 0x09 ∨ b = 0x0A ∨ b = 0x0D := by
  simpa [isWs, or_assoc] using h

theorem structural_cases {b : UInt8} (h : isStructural b = true) :
    b = comma ∨ b = colon ∨ b = closeBracket ∨ b = closeBrace := by
  simpa [isStructural, or_assoc] using h

theorem step_between {q : Quoting} {b : UInt8} (hq : q.Between) (hb : isWs b = true ∨ isStructural b = true) :
    step q b = some .outside := by
  rcases hq with rfl | rfl
  · rcases hb with hb | hb
    · rcases ws_cases hb with rfl | rfl | rfl | rfl <;> rfl
    · rcases structural_cases hb with rfl | rfl | rfl | rfl <;> rfl
  · exact if_pos (by simpa using hb)

/-- A blank leads into a string only from inside it. -/
theorem inside_of_step_blank {q : Quoting} {b : UInt8} (hb : isWs b = true) (h : step q b = some .inside) :
    q = .inside := by
  cases q with
  | inside => rfl
  | outside | closed => cases (step_between (by simp [Between]) (.inl hb)).symm.trans h
  | escaped => rcases ws_cases hb with rfl | rfl | rfl | rfl <;> cases h

theorem step_zero (q : Quoting) : step q 0 = none := by cases q <;> rfl

/-- Only a string holds a semicolon. -/
theorem step_semicolon {q r : Quoting} (h : step q semicolon = some r) : q = .inside ∧ r = .inside := by
  cases q with
  | inside => exact ⟨rfl, (Option.some.inj h).symm⟩
  | outside | escaped | closed => cases h

/-! ### Texts -/

theorem scan_no_zero {q r : Quoting} {s : Bytes} (h : scan q s = some r) : 0 ∉ s := by
  intro zero
  obtain ⟨front, back, rfl⟩ := List.append_of_mem zero
  obtain ⟨q', -, h⟩ := scan_append_some.mp h
  obtain ⟨r', step, -⟩ := scan_cons_some.mp h
  rw [step_zero] at step
  cases step

theorem scan_plain {s : Bytes} (h : ∀ b ∈ s, step .outside b = some .outside) : scan .outside s = some .outside := by
  induction s with
  | nil => rfl
  | cons b s ih =>
    rw [List.forall_mem_cons] at h
    rw [scan_cons, h.1]
    exact ih h.2

theorem scan_blank {w : Bytes} (hw : Blank w) : scan .outside w = some .outside :=
  scan_plain fun b hb => step_between (.inl rfl) (.inl (hw b hb))

theorem Between.blank {q : Quoting} (hq : q.Between) {w : Bytes} (hw : Blank w) : q.Rests w := by
  cases w with
  | nil => exact ⟨q, rfl, hq⟩
  | cons b w =>
    rw [Blank, List.forall_mem_cons] at hw
    refine ⟨.outside, ?_, .inl rfl⟩
    rw [scan_cons, step_between hq (.inl hw.1)]
    exact scan_blank hw.2

theorem Rests.blank {q : Quoting} {s w : Bytes} (h : q.Rests s) (hw : Blank w) : q.Rests (s ++ w) := by
  obtain ⟨r, scanned, between⟩ := h
  obtain ⟨r', scanned', between'⟩ := between.blank hw
  exact ⟨r', scan_append_some.mpr ⟨r, scanned, scanned'⟩, between'⟩

/-- Behind a place between strings a structural byte leads on. -/
theorem Rests.next {q : Quoting} {s : Bytes} (h : q.Rests s) {b : UInt8} (hb : isStructural b = true) (t : Bytes) :
    scan q (s ++ b :: t) = scan .outside t := by
  obtain ⟨r, scanned, between⟩ := h
  rw [scan_append, scanned, Option.bind_some, scan_cons, step_between between (.inr hb)]
  rfl

theorem inside_of_blank {q : Quoting} {w : Bytes} (hw : Blank w) (h : scan q w = some .inside) : q = .inside := by
  induction w generalizing q with
  | nil => exact Option.some.inj h
  | cons b w ih =>
    rw [Blank, List.forall_mem_cons] at hw
    obtain ⟨r, first, rest⟩ := scan_cons_some.mp h
    cases ih hw.2 rest
    exact inside_of_step_blank hw.1 first

theorem blank_of_inside {r : Quoting} {w : Bytes} (hw : Blank w) (h : scan .inside w = some r) : r = .inside := by
  induction w with
  | nil => exact (Option.some.inj h).symm
  | cons b w ih =>
    rw [Blank, List.forall_mem_cons] at hw
    obtain ⟨q, first, rest⟩ := scan_cons_some.mp h
    have stays : q = .inside := by
      rcases ws_cases hw.1 with rfl | rfl | rfl | rfl
      · exact (Option.some.inj first).symm
      all_goals cases first
    rw [stays] at rest
    exact ih hw.2 rest

/-! ### The parts of a text -/

theorem step_inside {b : UInt8} (low : ¬b < 0x20) (h : b ≠ quote) (h' : b ≠ backslash) : step .inside b = some .inside := by
  simp [step, low, h, h']

theorem hex_inside {b : UInt8} {n : Nat} (h : hexValue b = some n) : step .inside b = some .inside := by
  have all : ∀ n < 256, (hexValue (UInt8.ofNat n)).isSome = true → step .inside (UInt8.ofNat n) = some .inside := by
    decide +kernel
  have at_ := all b.toNat b.toNat_lt
  rw [UInt8.ofNat_toNat, h] at at_
  exact at_ rfl

theorem letter_inside {b c : UInt8} (h : letterEscape b = some c) : step .escaped b = some .inside := by
  have all : ∀ n < 256, (letterEscape (UInt8.ofNat n)).isSome = true → step .escaped (UInt8.ofNat n) = some .inside := by
    decide +kernel
  have at_ := all b.toNat b.toNat_lt
  rw [UInt8.ofNat_toNat, h] at at_
  exact at_ rfl

theorem scan_codeUnit {s r : Bytes} {n : Nat} (h : codeUnit s = some (n, r)) : scan .inside s = scan .inside r := by
  unfold codeUnit at h
  split at h
  next a b c d s =>
    simp only [Option.bind_eq_bind, Option.bind_eq_some_iff] at h
    obtain ⟨_, ha, _, hb, _, hc, _, hd, same⟩ := h
    obtain ⟨-, rfl⟩ := Prod.mk.inj (Option.some.inj same)
    simp only [scan_cons, hex_inside ha, hex_inside hb, hex_inside hc, hex_inside hd, Option.bind_some]
  · cases h

theorem scan_u (s : Bytes) : scan .inside (backslash :: 0x75 :: s) = scan .inside s := rfl

theorem scan_unicodeEscape {s r b : Bytes} (h : unicodeEscape s = some (b, r)) : scan .inside s = scan .inside r := by
  unfold unicodeEscape at h
  simp only [Option.bind_eq_bind, Option.bind_eq_some_iff] at h
  obtain ⟨⟨high, s'⟩, hh, h⟩ := h
  rw [scan_codeUnit hh]
  dsimp only at h
  split at h
  · split at h
    next x y s' =>
      split at h
      next mark =>
        obtain ⟨rfl, rfl⟩ := mark
        simp only [Option.bind_eq_some_iff] at h
        obtain ⟨⟨low, s''⟩, hl, h⟩ := h
        dsimp only at h
        split at h
        · obtain ⟨-, rfl⟩ := Prod.mk.inj (Option.some.inj h)
          rw [scan_u]
          exact scan_codeUnit hl
        · cases h
      · cases h
    · cases h
  · split at h
    · cases h
    · obtain ⟨-, rfl⟩ := Prod.mk.inj (Option.some.inj h)
      rfl

theorem scan_readChar {s r b : Bytes} (h : readChar s = some (b, r)) : scan .inside s = scan .inside r := by
  unfold readChar at h
  split at h
  · cases h
  next c s =>
    split at h
    next mark =>
      subst mark
      split at h
      · cases h
      next e s =>
        split at h
        next long =>
          subst long
          rw [scan_u]
          exact scan_unicodeEscape h
        next short =>
          obtain ⟨x, hx, same⟩ := Option.map_eq_some_iff.mp h
          cases same
          have first : step .inside backslash = some .escaped := rfl
          rw [scan_cons, first, Option.bind_some, scan_cons, letter_inside hx]
          rfl
    next plain =>
      split at h
      next free =>
        cases h
        rw [scan_cons, step_inside (UInt8.not_lt.mpr free.1) free.2 plain]
        rfl
      · cases h

theorem scan_chars {k key : Bytes} (h : Chars k key) : scan .inside k = some .inside := by
  induction h with
  | nil => rfl
  | @cons u t b s step _ ih =>
    rw [scan_append, scan_readChar step]
    exact ih

theorem scan_string {k key : Bytes} (h : Chars k key) (t : Bytes) :
    scan .outside (quote :: (k ++ quote :: t)) = scan .closed t := by
  rw [scan_cons, step_quote, Option.bind_some, scan_append, scan_chars h, Option.bind_some, scan_cons, step_unquote]
  rfl

theorem scan_key {w k key w₁ : Bytes} (hw : Blank w) (hk : Chars k key) (hw₁ : Blank w₁) (t : Bytes) :
    scan .outside (w ++ quote :: (k ++ quote :: (w₁ ++ colon :: t))) = scan .outside t := by
  rw [scan_append, scan_blank hw, Option.bind_some, scan_string hk]
  exact Rests.next (Between.blank (.inr rfl) hw₁) (by decide) t

variable {float : Bytes → Option Rat}

theorem scan_number {t : Bytes} (ht : t ∈ JsonText.number) : scan .outside t = some .outside := by
  have all : ∀ n < 256, isNumberByte (UInt8.ofNat n) = true → step .outside (UInt8.ofNat n) = some .outside := by
    decide +kernel
  refine scan_plain fun b hb => ?_
  have at_ := all b.toNat b.toNat_lt
  rw [UInt8.ofNat_toNat] at at_
  exact at_ (numberBytes ((isNumber_iff t).mpr ht) b hb)

theorem Rests.after {s t : Bytes} (h : scan .outside s = some .outside) (ht : Rests .outside t) : Rests .outside (s ++ t) := by
  obtain ⟨r, scanned, between⟩ := ht
  exact ⟨r, scan_append_some.mpr ⟨_, h, scanned⟩, between⟩

/-- Every part of a text starts and ends between strings. -/
theorem rests_reads {t : Bytes} {c : Content} (h : Reads float t c) : Rests .outside t := by
  induction h with
  | null => exact ⟨.outside, by decide, .inl rfl⟩
  | bool b => exact ⟨.outside, by cases b <;> decide, .inl rfl⟩
  | number ht => exact ⟨.outside, scan_number ht, .inl rfl⟩
  | str chars => exact ⟨.closed, scan_string chars [], .inr rfl⟩
  | emptyArray hw =>
    refine ⟨.outside, ?_, .inl rfl⟩
    exact (Rests.next ⟨.outside, scan_blank hw, .inl rfl⟩ (by decide) [])
  | array _ inner => exact ⟨.outside, inner.next (by decide) [], .inl rfl⟩
  | emptyObject hw =>
    refine ⟨.outside, ?_, .inl rfl⟩
    exact (Rests.next ⟨.outside, scan_blank hw, .inl rfl⟩ (by decide) [])
  | object _ inner => exact ⟨.outside, inner.next (by decide) [], .inl rfl⟩
  | element hw _ hw' value => exact .after (scan_blank hw) (value.blank hw')
  | @elements w t w' s v vs hw _ hw' _ value rest =>
    have behind : scan .outside (t ++ w' ++ comma :: s) = scan .outside s := (value.blank hw').next (by decide) s
    rw [List.append_assoc] at behind
    obtain ⟨r, scanned, between⟩ := rest
    exact .after (scan_blank hw) ⟨r, behind.trans scanned, between⟩
  | @member w k key w₁ w₂ t w₃ v hw hk hw₁ hw₂ _ hw₃ value =>
    obtain ⟨r, scanned, between⟩ := Rests.after (scan_blank hw₂) (value.blank hw₃)
    exact ⟨r, (scan_key hw hk hw₁ _).trans scanned, between⟩
  | @members w k key w₁ w₂ t w₃ s v ms hw hk hw₁ hw₂ _ hw₃ _ value rest =>
    have behind : scan .outside (t ++ w₃ ++ comma :: s) = scan .outside s := (value.blank hw₃).next (by decide) s
    rw [List.append_assoc] at behind
    obtain ⟨r, scanned, between⟩ := rest
    obtain ⟨r', scanned', between'⟩ := Rests.after (scan_blank hw₂) ⟨r, behind.trans scanned, between⟩
    exact ⟨r', (scan_key hw hk hw₁ _).trans scanned', between'⟩

/-- A document is blanks, a mark and a value, and leads to a place between strings. -/
theorem rests_document {s : Bytes} {v : Json} (h : Document float s v) : Rests .outside s := by
  obtain ⟨-, m, w, t, w', hm, hw, reads, hw', rfl⟩ := h
  have mark : scan .outside m = some .outside := by rcases hm with rfl | rfl <;> decide
  exact .after mark (.after (scan_blank hw) ((rests_reads reads).blank hw'))

/-! ### Keys -/

/-- Where a key that starts with `n` is found: at a quote between strings, with `n` or an escape behind it. -/
def KeyAt (n : UInt8) (s : Bytes) : Prop :=
  ∃ a c r, s = a ++ quote :: c :: r ∧ Rests .outside a ∧ (c = n ∨ c = backslash)

theorem KeyAt.behind {n : UInt8} {s t : Bytes} (h : KeyAt n t) (hs : scan .outside s = some .outside) :
    KeyAt n (s ++ t) := by
  obtain ⟨a, c, r, rfl, rests, first⟩ := h
  exact ⟨s ++ a, c, r, by simp, .after hs rests, first⟩

theorem KeyAt.before {n : UInt8} {s t : Bytes} (h : KeyAt n s) : KeyAt n (s ++ t) := by
  obtain ⟨a, c, r, rfl, rests, first⟩ := h
  exact ⟨a, c, r ++ t, by simp, rests, first⟩

theorem chars_first {n : UInt8} {k name : Bytes} (h : Chars k (n :: name)) :
    ∃ c r, k = c :: r ∧ (c = n ∨ c = backslash) := by
  generalize whole : n :: name = key at h
  cases h with
  | nil => cases whole
  | @cons u t b s step rest =>
    unfold readChar at step
    split at step
    · cases step
    next c u =>
      refine ⟨c, u ++ t, rfl, ?_⟩
      split at step
      next mark => exact .inr mark
      · split at step
        · cases step
          exact .inl (List.cons.inj whole).1.symm
        · cases step

theorem keyAt_members {n : UInt8} {name s : Bytes} {ms : List (Bytes × Json)} (h : Reads float s (.members ms))
    (listed : n :: name ∈ ms.map Prod.fst) : KeyAt n s := by
  have first {w k t : Bytes} (hw : Blank w) (hk : Chars k (n :: name)) : KeyAt n (w ++ quote :: (k ++ t)) := by
    obtain ⟨c, r, rfl, first⟩ := chars_first hk
    exact ⟨w, c, r ++ t, rfl, ⟨.outside, scan_blank hw, .inl rfl⟩, first⟩
  generalize whole : Content.members ms = content at h
  induction h generalizing ms with
  | @member w k key w₁ w₂ t w₃ v hw hk =>
    cases whole
    have same : n :: name = key := List.mem_singleton.mp listed
    rw [← same] at hk
    exact first hw hk
  | @members w k key w₁ w₂ t w₃ s v ms' hw hk hw₁ hw₂ hv hw₃ _ _ rest =>
    cases whole
    rcases List.mem_cons.mp listed with same | later
    · have same : n :: name = key := same
      rw [← same] at hk
      exact first hw hk
    · obtain ⟨a, c, r, rfl, ⟨q, scanned, between⟩, head⟩ := rest later rfl
      have front : scan .outside (w ++ quote :: (k ++ quote :: (w₁ ++ colon :: (w₂ ++ (t ++ (w₃ ++ [comma])))))) =
          some .outside := by
        have value := ((rests_reads hv).blank hw₃).next (b := comma) (by decide) []
        rw [List.append_assoc] at value
        rw [scan_key hw hk hw₁, scan_append, scan_blank hw₂, Option.bind_some, value]
        rfl
      have found := KeyAt.behind ⟨a, c, r, rfl, ⟨q, scanned, between⟩, head⟩ front
      simpa using found
  | _ => cases whole

theorem mem_insertField {key : Bytes} {v : Json} {fields : List (Bytes × Json)} {f : Bytes × Json}
    (h : f ∈ insertField key v fields) : f = (key, v) ∨ f ∈ fields := by
  induction fields with
  | nil => exact .inl (List.mem_singleton.mp h)
  | cons g fields ih =>
    rw [insertField] at h
    split at h
    · exact (List.mem_cons.mp h).imp_right (List.mem_cons_of_mem _)
    split at h
    · exact List.mem_cons.mp h
    · rcases List.mem_cons.mp h with rfl | h
      · exact .inr List.mem_cons_self
      · exact (ih h).imp_right (List.mem_cons_of_mem _)

theorem mem_storeFields {ms : List (Bytes × Json)} {f : Bytes × Json} (h : f ∈ storeFields ms) : f ∈ ms := by
  have all (ms fields : List (Bytes × Json)) (h : f ∈ ms.foldl (fun fields m => insertField m.1 m.2 fields) fields) :
      f ∈ fields ∨ f ∈ ms := by
    induction ms generalizing fields with
    | nil => exact .inl h
    | cons m ms ih =>
      rcases ih _ h with old | later
      · rcases mem_insertField old with rfl | old
        · exact .inr List.mem_cons_self
        · exact .inl old
      · exact .inr (List.mem_cons_of_mem _ later)
  exact (all ms [] h).resolve_left List.not_mem_nil

theorem keyAt_document {n : UInt8} {name s : Bytes} {fields : List (Bytes × Json)} {v : Json}
    (h : Document float s (.obj fields)) (found : fields.lookup (n :: name) = some v) : KeyAt n s := by
  obtain ⟨-, m, w, t, w', hm, hw, reads, -, rfl⟩ := h
  have mark : scan .outside m = some .outside := by rcases hm with rfl | rfl <;> decide
  refine .behind (.behind (.before ?_) (scan_blank hw)) mark
  generalize whole : Content.value (.obj fields) = content at reads
  cases reads with
  | emptyObject =>
    cases whole
    cases found
  | @object s ms hs =>
    cases whole
    have listed : n :: name ∈ ms.map Prod.fst := by
      obtain ⟨front, back, eq, -⟩ := List.lookup_eq_some_iff.mp found
      have stored : (n :: name, v) ∈ storeFields ms := by simp [eq]
      exact List.mem_map.mpr ⟨_, mem_storeFields stored, rfl⟩
    exact .behind (s := [openBrace]) (.before (keyAt_members hs listed)) rfl
  | number ht hv =>
    cases whole
    rcases numberValue_cases hv with ⟨i, same⟩ | ⟨x, same⟩ <;> cases same
  | _ => cases whole

/-! ### Cuts inside a string -/

/-- One reading is inside a string where the other is between strings. -/
def Exchanged (q r : Quoting) : Prop := (q = .inside ∧ r.Between) ∨ (q.Between ∧ r = .inside)

theorem inside_step {q' r r' : Quoting} {b : UInt8} (between : r.Between) (hq : step .inside b = some q')
    (hr : step r b = some r') : (q' = .inside ∧ r' = .outside) ∨ (q' = .closed ∧ r' = .inside) := by
  have closed (h : isWs b || isStructural b) : b ≠ quote ∧ b ≠ backslash := by
    constructor
    · rintro rfl
      exact absurd h (by decide)
    · rintro rfl
      exact absurd h (by decide)
  unfold step at hq hr
  rcases between with rfl | rfl <;> grind

theorem Exchanged.step {q q' r r' : Quoting} {b : UInt8} (h : Exchanged q r) (hq : q.step b = some q')
    (hr : r.step b = some r') : Exchanged q' r' := by
  rcases h with ⟨rfl, between⟩ | ⟨between, rfl⟩
  · rcases inside_step between hq hr with ⟨rfl, rfl⟩ | ⟨rfl, rfl⟩
    · exact .inl ⟨rfl, .inl rfl⟩
    · exact .inr ⟨.inr rfl, rfl⟩
  · rcases inside_step between hr hq with ⟨rfl, rfl⟩ | ⟨rfl, rfl⟩
    · exact .inr ⟨.inl rfl, rfl⟩
    · exact .inl ⟨rfl, .inr rfl⟩

theorem Exchanged.scan {q q' r r' : Quoting} {s : Bytes} (h : Exchanged q r) (hq : q.scan s = some q')
    (hr : r.scan s = some r') : Exchanged q' r' := by
  induction s generalizing q r with
  | nil =>
    cases hq
    cases hr
    exact h
  | cons b s ih =>
    obtain ⟨q₁, first, rest⟩ := scan_cons_some.mp hq
    obtain ⟨r₁, first', rest'⟩ := scan_cons_some.mp hr
    exact ih (h.step first first') rest rest'

/-- What is left of a text behind a cut inside a string has no key that starts with a letter. -/
theorem not_keyAt_of_inside {n : UInt8} {s : Bytes} {q : Quoting} (letter : step .closed n = none)
    (h : scan .inside s = some q) : ¬KeyAt n s := by
  rintro ⟨a, c, t, rfl, ⟨r, rests, between⟩, first⟩
  obtain ⟨q₁, front, h⟩ := scan_append_some.mp h
  obtain ⟨q₂, opened, h⟩ := scan_cons_some.mp h
  obtain ⟨q₃, letter', -⟩ := scan_cons_some.mp h
  -- what starts the key here is the quote that ends the string the cut was made in
  have inside : q₁ = .inside := by
    rcases Exchanged.scan (.inl ⟨rfl, .inl rfl⟩) front rests with ⟨same, -⟩ | ⟨-, same⟩
    · exact same
    · rcases between with rfl | rfl <;> cases same
  rw [inside, step_unquote] at opened
  cases opened
  rcases first with rfl | rfl
  · rw [letter] at letter'
    cases letter'
  · cases letter'

end Quoting

end Mlxforge.Json
