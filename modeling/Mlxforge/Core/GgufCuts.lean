import Mlxforge.Core.GgufFormat

/-!
What the readers of the metadata make of a record that is cut short. A scalar that is not there holds whatever its
variable held; a string that is not there whole is filled up with zeros.
-/

namespace Mlxforge

open StreamReader

variable {z : Prop} {s : InputStream}

/-- A text that a short read left unfilled: empty, or with a zero at its end. -/
def Blank (s : Bytes) : Prop := s.getLastD 0 = 0

instance (s : Bytes) : Decidable (Blank s) := inferInstanceAs (Decidable (_ = _))

theorem blank_append_zeros (s : Bytes) {n : Nat} (some : 0 < n) : Blank (s ++ List.replicate n 0) := by
  obtain ⟨n, rfl⟩ := Nat.exists_eq_succ_of_ne_zero some.ne'
  unfold Blank
  rw [List.replicate_succ', ← List.append_assoc, List.getLastD_concat]

theorem littleEndian_prefix (n : Nat) (v : Int) {k : Nat} (fewer : k ≤ n) : (littleEndian n v).take k = littleEndian k v := by
  induction k generalizing n v with
  | zero => rfl
  | succ k ih =>
    obtain ⟨n, rfl⟩ := Nat.exists_eq_succ_of_ne_zero (show n ≠ 0 by omega)
    rw [littleEndian, littleEndian, List.take_succ_cons, ih n (v / 256) (by omega)]

/-- A scalar of which some bytes may be missing. -/
theorem readScalar_cut {n v : Nat} {tail : Bytes} (fits : v < 256 ^ n) (part : s.rest <+: littleEndian n v ++ tail) :
    Yields (readScalar n) s fun w s' =>
      s'.rest = s.rest.drop n ∧ (s.Zeroed → s'.Zeroed) ∧ (s.rest.length < n → s'.failed = true) ∧
        (n ≤ s.rest.length → w = v) ∧
        w % 256 ^ min n s.rest.length = v % 256 ^ min n s.rest.length ∧
        (s.Zeroed → w = v % 256 ^ min n s.rest.length) := by
  have size : (s.rest.take n).length = min n s.rest.length := List.length_take
  have found : s.rest.take n = littleEndian (min n s.rest.length) v := by
    have front := part.take n
    rw [List.take_left' (littleEndian_length n v)] at front
    rw [← littleEndian_prefix n v (Nat.min_le_left n _), ← size]
    exact List.prefix_iff_eq_take.mp front
  have value : fromLittleEndian (s.rest.take n) = v % 256 ^ min n s.rest.length := by
    rw [found, fromLittleEndian_littleEndian]
  apply (readFresh_yields n s).bind
  rintro bytes s' ⟨rest, zeros, failed, front, length, filled⟩
  have low := fromLittleEndian_mod_of_prefix front
  rw [size, value] at low
  apply yields_pure
  refine ⟨rest, zeros, failed, ?_, low, ?_⟩
  · intro whole
    have bound := fromLittleEndian_lt bytes
    rw [length] at bound
    rw [Nat.min_eq_left whole, Nat.mod_eq_of_lt bound, Nat.mod_eq_of_lt fits] at low
    exact low
  · intro zero
    rw [filled zero, fromLittleEndian_append, fromLittleEndian_zeros, Nat.mul_zero, Nat.add_zero, value]

/-- A scalar that is not there at all. -/
theorem readScalar_drained (n : Nat) (dead : Drained z s) :
    Settles z (readScalar n) s fun w s' => Drained z s' ∧ (0 < n → s'.failed = true) ∧ (z → w = 0) := by
  have part : s.rest <+: littleEndian n (0 : Nat) ++ [] := by
    rw [dead.rest]
    exact List.nil_prefix
  apply (readScalar_cut (Nat.pow_pos (by decide)) part).settles.mono
  rintro w s' ⟨rest, zeros, failed, _, _, value⟩
  rw [dead.rest] at rest failed value
  refine ⟨⟨by rw [rest, List.drop_nil], fun holds => zeros (dead.zeros holds)⟩, failed, ?_⟩
  intro holds
  rw [value (dead.zeros holds), Nat.zero_mod]

theorem readGgufString_cut {k : Bytes} (fits : k.length < 2 ^ 63) (zeros : z → s.Zeroed) (part : s.rest <+: ggufString k)
    (short : s.rest.length < (ggufString k).length) :
    Settles z readGgufString s fun key s' => Drained z s' ∧ Blank key := by
  have total : (ggufString k).length = 8 + k.length := by simp [ggufString]
  apply (readScalar_cut (by omega) part).settles.bind
  rintro n s' ⟨rest, zeros', _, whole, _, _⟩
  have length : s'.rest.length = s.rest.length - 8 := by rw [rest, List.length_drop]
  by_cases empty : n = 0
  · have nothing : s'.rest = [] := by
      rw [rest]
      apply List.drop_eq_nil_of_le
      by_contra more
      have := whole (by omega)
      omega
    rw [if_pos empty]
    exact settles_pure ⟨⟨nothing, fun holds => zeros' (zeros holds)⟩, rfl⟩
  · have fewer : s'.rest.length < n := by
      by_cases more : 8 ≤ s.rest.length
      · rw [whole more]
        omega
      · omega
    rw [if_neg empty]
    apply (readInto_zeros_yields n s').settles.mono
    rintro key s'' ⟨rest', same, rfl⟩
    constructor
    · constructor
      · rw [rest']
        exact List.drop_eq_nil_of_le fewer.le
      · intro holds
        rw [InputStream.Zeroed, same]
        exact zeros' (zeros holds)
    · exact blank_append_zeros _ (by omega)

theorem readGgufString_drained (dead : Drained z s) :
    Settles z readGgufString s fun key s' => Drained z s' ∧ Blank key := by
  have part : s.rest <+: ggufString [] := by
    rw [dead.rest]
    exact List.nil_prefix
  exact readGgufString_cut (k := []) (by decide) dead.zeros part (by rw [dead.rest]; decide)

/-! ### A failed stream -/

theorem stuck_readScalar (n : Nat) : Stuck (readScalar n) := (stuck_readFresh n).bind fun _ => stuck_pure _

theorem stuck_readGgufString : Stuck readGgufString := by
  apply (stuck_readScalar 8).bind
  intro n
  split
  · exact stuck_pure []
  · exact stuck_readInto _

theorem stuck_skipArrayElements {skipValue : Nat → GgufReader Unit} (each : ∀ et, Stuck (skipValue et)) (et cnt : Nat) :
    Stuck (skipArrayElements skipValue et cnt) := by
  unfold skipArrayElements
  split
  · split
    · exact stuck_seekBy _
    · exact ((each et).times cnt).bind fun _ => stuck_pure _
  · exact ((each et).times cnt).bind fun _ => stuck_pure _

theorem stuck_skipMetadataValue (stack type : Nat) : Stuck (skipMetadataValue stack type) := by
  induction stack generalizing type with
  | zero => exact stuck_throw _
  | succ stack ih =>
    unfold skipMetadataValue
    split
    · exact stuck_seekBy _
    split
    · exact stuck_seekBy _
    split
    · exact stuck_seekBy _
    split
    · exact stuck_seekBy _
    split
    · exact (stuck_readScalar 8).bind fun _ => stuck_seekBy _
    split
    · apply (stuck_readScalar 4).bind
      intro et
      apply (stuck_readScalar 8).bind
      intro cnt
      exact stuck_skipArrayElements (fun et => ih et) et cnt
    · exact stuck_throw _

/-- On a failed stream, what is read does not matter; what is left there does not either, where `z` holds. -/
theorem settles_stuck {α : Type} {p : GgufReader α} (stuck : Stuck p) (failed : s.failed = true)
    (fed : z → Settles z p s fun _ s' => Drained z s') : Settles z p s fun _ s' => Drained z s' := by
  by_cases holds : z
  · exact fed holds
  · apply settles_of
    · refine (stuck s failed).mono ?_
      exact fun _ s' failed' => ⟨InputStream.rest_of_failed failed', fun holds' => absurd holds' holds⟩
    · exact fun holds' => absurd holds' holds

/-! ### Arrays -/

/-- Where the readers stand once they have read the element type and the count of an array that is cut short: both are
right and the elements are cut, or the stream has failed. -/
inductive ArrayCut (z : Prop) (et : Nat) (elems : List GgufValue) (et' cnt' : Nat) (s : InputStream) : Prop where
  | elements (sameType : et' = et) (sameCount : cnt' = elems.length) (zeros : z → s.Zeroed)
      (part : s.rest <+: GgufValue.payloads elems) (short : s.rest.length < (GgufValue.payloads elems).length)
  | failed (failed : s.failed = true) (dead : Drained z s) (type : z → et' = et ∨ et' = 0)
      (count : z → cnt' ≤ elems.length)

theorem arrayHeader_cut {α : Type} {et : Nat} {elems : List GgufValue} {k : Nat → Nat → GgufReader α}
    {Q : α → InputStream → Prop} (small : et ≤ 12) (fits : elems.length < 2 ^ 63) (zeros : z → s.Zeroed)
    (part : s.rest <+: (GgufValue.array et elems).payload)
    (short : s.rest.length < (GgufValue.array et elems).payload.length)
    (body : ∀ et' cnt' s', ArrayCut z et elems et' cnt' s' → Settles z (k et' cnt') s' Q) :
    Settles z (do
      let et ← readScalar 4
      let cnt ← readScalar 8
      k et cnt) s Q := by
  rw [GgufValue.payload] at part short
  rw [List.length_append, List.length_append, littleEndian_length, littleEndian_length] at short
  apply (readScalar_cut (by omega) part).settles.bind
  rintro et' s₁ ⟨rest₁, zeros₁, failed₁, whole₁, _, value₁⟩
  have length₁ : s₁.rest.length = s.rest.length - 4 := by rw [rest₁, List.length_drop]
  have part₁ : s₁.rest <+: littleEndian 8 elems.length ++ GgufValue.payloads elems := by
    have front := part.drop 4
    rw [List.drop_left' (littleEndian_length 4 _)] at front
    rwa [rest₁]
  apply (readScalar_cut (by omega) part₁).settles.bind
  rintro cnt' s₂ ⟨rest₂, zeros₂, failed₂, whole₂, _, value₂⟩
  have length₂ : s₂.rest.length = s₁.rest.length - 8 := by rw [rest₂, List.length_drop]
  apply body
  by_cases counted : 8 ≤ s₁.rest.length
  · apply ArrayCut.elements (whole₁ (by omega)) (whole₂ counted)
    · exact fun holds => zeros₂ (zeros₁ (zeros holds))
    · have front := part₁.drop 8
      rw [List.drop_left' (littleEndian_length 8 _)] at front
      rwa [rest₂]
    · omega
  · apply ArrayCut.failed (failed₂ (by omega))
    · constructor
      · exact List.length_eq_zero_iff.mp (by omega)
      · exact fun holds => zeros₂ (zeros₁ (zeros holds))
    · intro holds
      have value := value₁ (zeros holds)
      by_cases none : min 4 s.rest.length = 0
      · right
        rw [value, none, pow_zero, Nat.mod_one]
      · left
        have low : 256 ^ 1 ≤ 256 ^ min 4 s.rest.length := Nat.pow_le_pow_right (by decide) (by omega)
        rw [value, Nat.mod_eq_of_lt (by omega)]
    · intro holds
      rw [value₂ (zeros₁ (zeros holds))]
      exact Nat.mod_le _ _

theorem GgufValue.payload_ne_nil {v : GgufValue} (well : v.WellFormed) : v.payload ≠ [] := by
  apply List.length_pos_iff.mp
  cases v with
  | scalar t raw =>
    rw [payload, littleEndian_length]
    exact (scalarWidths_numeric well.1).2
  | str s => simp [payload, ggufString]
  | array et elems => simp [payload]

/-- Elements of a cut array, read by any reader that settles on a cut element. -/
theorem elements_cut {α : Type} {p : GgufReader α} (value : GgufValue → α) {et : Nat} {elems : List GgufValue}
    {cnt' : Nat} (all : GgufValue.AllOf et elems) (cut : ArrayCut z et elems et cnt' s)
    (whole : ∀ v ∈ elems, Reads p v.payload (value v))
    (each : ∀ v ∈ elems, ∀ s : InputStream, (z → s.Zeroed) → s.rest <+: v.payload → s.rest.length < v.payload.length →
      Settles z p s fun _ s' => Drained z s')
    (stuck : Stuck p) : Settles z (times p cnt') s fun _ s' => Drained z s' := by
  cases cut with
  | elements _ sameCount zeros part short =>
    rw [GgufValue.payloads_eq] at part short
    rw [sameCount]
    exact times_cut whole (fun v member => GgufValue.payload_ne_nil (all.mem member).2) each zeros part short
  | failed failed dead type count =>
    apply settles_stuck (stuck.times cnt') failed
    intro holds
    cases elems with
    | nil =>
      obtain rfl : cnt' = 0 := Nat.le_zero.mp (count holds)
      exact settles_pure (a := []) dead
    | cons v vs =>
      apply times_drained _ cnt' dead
      intro s dead
      apply each v List.mem_cons_self s dead.zeros
      · rw [dead.rest]
        exact List.nil_prefix
      · rw [dead.rest]
        exact List.length_pos_iff.mpr (GgufValue.payload_ne_nil (all.mem List.mem_cons_self).2)

theorem skipArrayElements_cut {stack et et' cnt' : Nat} {elems : List GgufValue} (small : et ≤ 12)
    (fits : elems.length < 2 ^ 63) (all : GgufValue.AllOf et elems) (cut : ArrayCut z et elems et' cnt' s)
    (whole : ∀ v ∈ elems, Reads (skipMetadataValue stack v.type) v.payload ())
    (each : ∀ v ∈ elems, ∀ s : InputStream, (z → s.Zeroed) → s.rest <+: v.payload → s.rest.length < v.payload.length →
      Settles z (skipMetadataValue stack v.type) s fun _ s' => Drained z s') :
    Settles z (skipArrayElements (skipMetadataValue stack) et' cnt') s fun _ s' => Drained z s' := by
  have variable_ : et' = et → ¬isNumericType et →
      Settles z (skipArrayElements (skipMetadataValue stack) et' cnt') s fun _ s' => Drained z s' := by
    rintro rfl notNumeric
    rw [skipArrayElements_variable small notNumeric]
    have loop : Settles z (times (skipMetadataValue stack et') cnt') s fun _ s' => Drained z s' := by
      apply elements_cut (fun _ => ()) all cut
      · intro v member
        have read := whole v member
        rwa [(all.mem member).1] at read
      · intro v member
        have settles := each v member
        rwa [(all.mem member).1] at settles
      · exact stuck_skipMetadataValue stack et'
    exact loop.bind fun _ _ dead => settles_pure dead
  cases cut with
  | elements sameType sameCount zeros part short =>
    by_cases numeric : isNumericType et
    · have size := GgufValue.payloads_length all numeric
      rw [sameType, sameCount, skipArrayElements_scalar numeric fits, ← size]
      apply Yields.settles
      exact ⟨(), _, rfl, Drained.skip zeros short.le⟩
    · exact variable_ sameType numeric
  | failed failed dead type count =>
    apply settles_stuck (stuck_skipArrayElements (fun et => stuck_skipMetadataValue stack et) et' cnt') failed
    intro holds
    have fits' : cnt' < 2 ^ 63 := lt_of_le_of_lt (count holds) fits
    by_cases numeric : isNumericType et'
    · rw [skipArrayElements_scalar numeric fits']
      apply Yields.settles
      exact ⟨(), _, rfl, Drained.skip dead.zeros (by rw [dead.rest]; exact Nat.zero_le _)⟩
    · rcases type holds with rfl | rfl
      · exact variable_ rfl numeric
      · exact absurd (by decide) numeric

namespace GgufValue

mutual

theorem skip_cut : {stack : Nat} → (v : GgufValue) → v.WellFormed → v.frames ≤ stack → {s : InputStream} →
    (z → s.Zeroed) → s.rest <+: v.payload → s.rest.length < v.payload.length →
    Settles z (skipMetadataValue stack v.type) s fun _ s' => Drained z s'
  | 0, v, _, deep, _, _, _, _ => by
    have positive : 1 ≤ v.frames := by
      cases v <;> simp [frames]
    omega
  | stack + 1, scalar t raw, well, _, s, zeros, _, short => by
    rw [payload, littleEndian_length] at short
    rw [type, skipMetadataValue_scalar well.1]
    apply Yields.settles
    exact ⟨(), _, rfl, Drained.skip zeros short.le⟩
  | stack + 1, str text, well, _, s, zeros, part, short => by
    have fits : text.length < 2 ^ 63 := well
    rw [payload] at part short
    have total : (ggufString text).length = 8 + text.length := by simp [ggufString]
    change Settles z (do
      let n ← readScalar 8
      seekBy (signed 8 n)) s _
    apply (readScalar_cut (by omega) part).settles.bind
    rintro n s' ⟨rest, zeros', failed, whole, _, _⟩
    have length : s'.rest.length = s.rest.length - 8 := by rw [rest, List.length_drop]
    apply Yields.settles
    by_cases counted : 8 ≤ s.rest.length
    · rw [whole counted, signed_of_lt fits]
      exact ⟨(), _, rfl, Drained.skip (fun holds => zeros' (zeros holds)) (by omega)⟩
    · have stays : s'.seekBy (signed 8 n) = s' := if_pos (failed (by omega))
      have dead : Drained z s' := ⟨List.length_eq_zero_iff.mp (by omega), fun holds => zeros' (zeros holds)⟩
      exact ⟨(), _, rfl, by rwa [stays]⟩
  | stack + 1, array et elems, well, deep, s, zeros, part, short => by
    obtain ⟨small, fits, all⟩ := well
    have deep' : framesOf elems ≤ stack := by
      rw [frames] at deep
      omega
    change Settles z (do
      let et ← readScalar 4
      let cnt ← readScalar 8
      skipArrayElements (skipMetadataValue stack) et cnt) s _
    apply arrayHeader_cut small fits zeros part short
    intro et' cnt' s' cut
    exact skipArrayElements_cut small fits all cut (reads_skips elems all deep') (skips_cut elems all deep')

theorem skips_cut : {stack et : Nat} → (vs : List GgufValue) → AllOf et vs → framesOf vs ≤ stack →
    ∀ v ∈ vs, ∀ s : InputStream, (z → s.Zeroed) → s.rest <+: v.payload → s.rest.length < v.payload.length →
      Settles z (skipMetadataValue stack v.type) s fun _ s' => Drained z s'
  | _, _, [], _, _ => nofun
  | stack, et, v :: vs, all, deep => by
    obtain ⟨_, well, rest⟩ := all
    rw [framesOf, max_le_iff] at deep
    intro w member
    rcases List.mem_cons.mp member with same | member
    · rw [same]
      exact fun s => skip_cut v well deep.1
    · exact skips_cut vs rest deep.2 w member

end

end GgufValue

/-! ### Entries -/

variable {R : Type} [Floats R]

/-- Every numeric type is read as one scalar of its width. -/
theorem readNumeric_eq {t : Nat} (numeric : isNumericType t) : readNumeric t = (do
    let v ← readScalar (scalarBytes t)
    return (numericOf t v : R)) := by
  obtain ⟨small, notString, notArray⟩ := isNumericType_iff.mp numeric
  interval_cases t <;> first | contradiction | rfl

theorem readNumeric_cut {t raw : Nat} (numeric : isNumericType t) (fits : raw < 256 ^ scalarBytes t)
    (zeros : z → s.Zeroed) (part : s.rest <+: littleEndian (scalarBytes t) raw) (short : s.rest.length < scalarBytes t) :
    Settles z (readNumeric t) s fun (x : R) s' => Drained z s' ∧ (z → ∃ v ≤ raw, x = numericOf t v) := by
  rw [← List.append_nil (littleEndian _ _)] at part
  rw [readNumeric_eq numeric]
  apply (readScalar_cut fits part).settles.bind
  rintro v s' ⟨rest, zeros', _, _, _, value⟩
  apply settles_pure
  refine ⟨⟨?_, fun holds => zeros' (zeros holds)⟩, fun holds => ⟨v, ?_, rfl⟩⟩
  · rw [rest]
    exact List.drop_eq_nil_of_le short.le
  · rw [value (zeros holds)]
    exact Nat.mod_le _ _

theorem readNumeric_drained {t : Nat} (numeric : isNumericType t) (dead : Drained z s) :
    Settles z (readNumeric t) s fun (_ : R) s' => Drained z s' := by
  have positive := (scalarWidths_numeric numeric).2
  have part : s.rest <+: littleEndian (scalarBytes t) (0 : Nat) := by
    rw [dead.rest]
    exact List.nil_prefix
  exact (readNumeric_cut numeric (Nat.pow_pos (by decide)) dead.zeros part (by rw [dead.rest]; exact positive)).mono
    fun _ _ facts => facts.1

theorem stuck_readNumeric {t : Nat} (numeric : isNumericType t) : Stuck (readNumeric (R := R) t) := by
  rw [readNumeric_eq numeric]
  exact (stuck_readScalar _).bind fun _ => stuck_pure _

theorem texts_cut {et cnt' : Nat} {elems : List GgufValue} (all : GgufValue.AllOf et elems)
    (cut : ArrayCut z et elems 8 cnt' s) : Settles z (times readGgufString cnt') s fun _ s' => Drained z s' := by
  cases cut with
  | elements sameType sameCount zeros part short =>
    subst sameType
    have strings : ∀ v ∈ elems, ∃ text, v = .str text ∧ text.length < 2 ^ 63 := by
      intro v member
      obtain ⟨type, well⟩ := all.mem member
      cases v with
      | scalar t raw =>
        obtain rfl : t = 8 := type
        exact absurd well.1 (by decide)
      | str text => exact ⟨text, rfl, well⟩
      | array et elems => exact absurd (show 9 = 8 from type) (by decide)
    apply elements_cut GgufValue.text all (.elements rfl sameCount zeros part short)
    · intro v member
      obtain ⟨text, rfl, fits⟩ := strings v member
      exact reads_string fits
    · intro v member s zeros part short
      obtain ⟨text, rfl, fits⟩ := strings v member
      exact (readGgufString_cut fits zeros part short).mono fun _ _ cut => cut.1
    · exact stuck_readGgufString
  | failed failed dead type count =>
    apply settles_stuck (stuck_readGgufString.times cnt') failed
    intro _
    apply times_drained _ cnt' dead
    exact fun s dead => (readGgufString_drained dead).mono fun _ _ cut => cut.1

theorem numbers_cut {et et' cnt' : Nat} {elems : List GgufValue} (all : GgufValue.AllOf et elems)
    (numeric : isNumericType et') (cut : ArrayCut z et elems et' cnt' s) :
    Settles z (times (readNumeric (R := R) et') cnt') s fun _ s' => Drained z s' := by
  cases cut with
  | elements sameType sameCount zeros part short =>
    subst sameType
    have scalars : ∀ v ∈ elems, ∃ raw, v = .scalar et' raw ∧ raw < 256 ^ scalarBytes et' := by
      intro v member
      obtain ⟨type, well⟩ := all.mem member
      cases v with
      | scalar t raw =>
        obtain rfl : t = et' := type
        exact ⟨raw, rfl, well.2⟩
      | str text =>
        obtain rfl : 8 = et' := type
        exact absurd numeric (by decide)
      | array et elems =>
        obtain rfl : 9 = et' := type
        exact absurd numeric (by decide)
    apply elements_cut GgufValue.number all (.elements rfl sameCount zeros part short)
    · intro v member
      obtain ⟨raw, rfl, fits⟩ := scalars v member
      exact reads_numeric numeric fits
    · intro v member s zeros part short
      obtain ⟨raw, rfl, fits⟩ := scalars v member
      rw [GgufValue.payload] at part
      rw [GgufValue.payload, littleEndian_length] at short
      exact (readNumeric_cut numeric fits zeros part short).mono fun _ _ facts => facts.1
    · exact stuck_readNumeric numeric
  | failed failed dead type count =>
    apply settles_stuck ((stuck_readNumeric numeric).times cnt') failed
    intro _
    apply times_drained _ cnt' dead
    exact fun s dead => readNumeric_drained numeric dead

/-- A cut array changes nothing that the configuration reads from. -/
theorem parseArray_cut {stack et : Nat} {elems : List GgufValue} (m : GgufMetadata R) (key : Bytes)
    (well : (GgufValue.array et elems).WellFormed) (deep : (GgufValue.array et elems).frames ≤ stack)
    (zeros : z → s.Zeroed) (part : s.rest <+: (GgufValue.array et elems).payload)
    (short : s.rest.length < (GgufValue.array et elems).payload.length) :
    Settles z (parseArray stack m key) s fun m' s' => Drained z s' ∧ m'.nums = m.nums ∧ m'.strs = m.strs := by
  obtain ⟨small, fits, all⟩ := well
  have deep' : GgufValue.framesOf elems ≤ stack := by
    rw [GgufValue.frames] at deep
    omega
  apply arrayHeader_cut small fits zeros part short
  intro et' cnt' s' cut
  split
  · rename_i tokens
    rw [tokens.2] at cut
    exact (texts_cut all cut).bind fun _ _ dead => settles_pure ⟨dead, rfl, rfl⟩
  split
  · rename_i merges
    rw [merges.2] at cut
    exact (texts_cut all cut).bind fun _ _ dead => settles_pure ⟨dead, rfl, rfl⟩
  split
  · rename_i types
    exact (numbers_cut all types.2 cut).bind fun _ _ dead => settles_pure ⟨dead, rfl, rfl⟩
  · have skipped := skipArrayElements_cut small fits all cut (GgufValue.reads_skips elems all deep')
      (GgufValue.skips_cut elems all deep')
    exact skipped.bind fun _ _ dead => settles_pure ⟨dead, rfl, rfl⟩

theorem GgufEntry.encode_length (e : GgufEntry) : e.encode.length = 8 + e.key.length + 4 + e.value.payload.length := by
  simp [GgufEntry.encode, ggufString]
  omega

/-- An entry that is cut short: in its key, right after it, or later. -/
theorem entryHeader_cut {α : Type} {e : GgufEntry} {k : Bytes → Nat → GgufReader α} {Q : α → InputStream → Prop}
    (well : e.WellFormed) (zeros : z → s.Zeroed) (part : s.rest <+: e.encode) (short : s.rest.length < e.encode.length)
    (noKey : s.rest.length < 8 + e.key.length →
      ∀ key vt s', Drained z s' → Blank key → (z → vt = 0) → Settles z (k key vt) s' Q)
    (noType : s.rest.length = 8 + e.key.length → ∀ vt s', Drained z s' → (z → vt = 0) → Settles z (k e.key vt) s' Q)
    (typed : 8 + e.key.length < s.rest.length → ∀ vt s', (z → s'.Zeroed) → s'.rest <+: e.value.payload →
      s'.rest.length < e.value.payload.length → (vt ≤ 12 → vt = e.value.type) → (z → vt = e.value.type) →
      Settles z (k e.key vt) s' Q) :
    Settles z (do
      let key ← readGgufString
      let vt ← readScalar 4
      k key vt) s Q := by
  have size := e.encode_length
  have total : (ggufString e.key).length = 8 + e.key.length := by simp [ggufString]
  have small := type_lt e.value well.value
  have some := List.length_pos_iff.mpr (GgufValue.payload_ne_nil well.value)
  unfold GgufEntry.encode at part
  rcases prefix_append_cases part with ⟨inside, shorter⟩ | ⟨found, rest⟩
  · apply (readGgufString_cut well.key zeros inside shorter).bind
    rintro key s₁ ⟨dead, blank⟩
    apply (readScalar_drained 4 dead).bind
    rintro vt s₂ ⟨dead, _, zero⟩
    exact noKey (by omega) key vt s₂ dead blank zero
  · have good : s.failed = false := by
      apply good_of_rest
      intro empty
      rw [empty] at found
      have nothing := congrArg List.length (List.prefix_nil.mp found)
      rw [total] at nothing
      exact absurd nothing (by simp)
    apply ((reads_string well.key).yields good found).settles.bind
    rintro _ _ ⟨rfl, rfl⟩
    rw [← InputStream.skip_rest] at rest
    have length : (s.skip (ggufString e.key).length).rest.length = s.rest.length - (8 + e.key.length) := by
      rw [InputStream.skip_rest, List.length_drop, total]
    have more := found.length_le
    have zeros₁ : z → (s.skip (ggufString e.key).length).Zeroed := zeros
    generalize s.skip (ggufString e.key).length = s₁ at rest length zeros₁
    apply (readScalar_cut (by omega) rest).settles.bind
    rintro vt s₂ ⟨rest₂, zeros₂, _, _, low, value⟩
    have length₂ : s₂.rest.length = s₁.rest.length - 4 := by rw [rest₂, List.length_drop]
    have zeros' : z → s₂.Zeroed := fun holds => zeros₂ (zeros₁ holds)
    by_cases unread : s₁.rest.length = 0
    · apply noType (by omega) vt s₂ ⟨List.length_eq_zero_iff.mp (by omega), zeros'⟩
      intro holds
      rw [value (zeros₁ holds), unread, Nat.min_zero, pow_zero, Nat.mod_one]
    · have wide : 256 ^ 1 ≤ 256 ^ min 4 s₁.rest.length := Nat.pow_le_pow_right (by decide) (by omega)
      have front := rest.drop 4
      rw [List.drop_left' (littleEndian_length 4 _), ← rest₂] at front
      apply typed (by omega) vt s₂ zeros' front (by omega)
      · intro known
        rwa [Nat.mod_eq_of_lt (by omega), Nat.mod_eq_of_lt (by omega)] at low
      · intro holds
        rw [value (zeros₁ holds), Nat.mod_eq_of_lt (by omega)]

end Mlxforge
