import Mlxforge.Core.GgufCuts

/-!
What `parse_gguf_metadata` makes of a file that ends early: exactly the entries before the end, as far as the
configuration can tell.
-/

namespace Mlxforge

open StreamReader

variable {z : Prop} {s : InputStream} {R : Type}

/-- What the configuration can tell apart: which numbers are there, and which strings. A blank text is none of its
keys and none of its values. -/
structure Covers (m m' : GgufMetadata R) : Prop where
  nums : ∀ k, ¬Blank k → (m.nums k).isSome → (m'.nums k).isSome
  strs : ∀ k v, ¬Blank k → ¬Blank v → m.strs k = some v → m'.strs k = some v

namespace Covers

variable {m m' m'' : GgufMetadata R}

theorem refl (m : GgufMetadata R) : Covers m m := ⟨fun _ _ h => h, fun _ _ _ _ h => h⟩

theorem trans (first : Covers m m') (second : Covers m' m'') : Covers m m'' where
  nums := fun k visible present => second.nums k visible (first.nums k visible present)
  strs := fun k v visible readable found => second.strs k v visible readable (first.strs k v visible readable found)

theorem of_same (nums : m.nums = m'.nums) (strs : m.strs = m'.strs) : Covers m m' where
  nums := fun k _ present => by rwa [← nums]
  strs := fun k v _ _ found => by rwa [← strs]

theorem num (covers : Covers m m') (key : Bytes) (x y : R) :
    Covers { m with nums := Function.update m.nums key (some x) }
      { m' with nums := Function.update m'.nums key (some y) } where
  nums := by
    intro k visible present
    by_cases same : k = key
    · subst same
      simp
    · simp only [Function.update_of_ne same] at present ⊢
      exact covers.nums k visible present
  strs := covers.strs

theorem str (covers : Covers m m') (key : Bytes) {v w : Bytes} (readable : v = w ∨ Blank v) :
    Covers { m with strs := Function.update m.strs key (some v) }
      { m' with strs := Function.update m'.strs key (some w) } where
  nums := covers.nums
  strs := by
    intro k u visible readable' found
    by_cases same : k = key
    · subst same
      simp only [Function.update_self, Option.some.injEq] at found ⊢
      subst found
      rcases readable with rfl | blank
      · rfl
      · exact absurd blank readable'
    · simp only [Function.update_of_ne same] at found ⊢
      exact covers.strs k u visible readable' found

/-- A number under a blank key is not seen. -/
theorem blank_num (m : GgufMetadata R) {key : Bytes} (blank : Blank key) (x : R) :
    Covers { m with nums := Function.update m.nums key (some x) } m where
  nums := by
    intro k visible present
    have other : k ≠ key := by
      rintro rfl
      exact visible blank
    simpa only [Function.update_of_ne other] using present
  strs := fun _ _ _ _ found => found

theorem num_right (m : GgufMetadata R) (key : Bytes) (x : R) :
    Covers m { m with nums := Function.update m.nums key (some x) } where
  nums := by
    intro k _ present
    by_cases same : k = key
    · subst same
      simp
    · simpa only [Function.update_of_ne same] using present
  strs := fun _ _ _ _ found => found

/-- A blank string hides what was there, and is not seen itself. -/
theorem blank_str (m : GgufMetadata R) (key : Bytes) {v : Bytes} (blank : Blank v) :
    Covers { m with strs := Function.update m.strs key (some v) } m where
  nums := fun _ _ present => present
  strs := by
    intro k u _ readable found
    by_cases same : k = key
    · subst same
      simp only [Function.update_self, Option.some.injEq] at found
      subst found
      exact absurd blank readable
    · simpa only [Function.update_of_ne same] using found

variable [Floats R]

theorem add (covers : Covers m m') (e : GgufEntry) : Covers (m.add e) (m'.add e) := by
  obtain ⟨key, value⟩ := e
  cases value with
  | scalar t raw => exact covers.num key _ _
  | str text => exact covers.str key (.inl rfl)
  | array et elems =>
    apply (of_same _ _).trans (covers.trans (of_same _ _)) <;>
      · unfold GgufMetadata.add
        simp only
        split_ifs <;> rfl

theorem addAll (covers : Covers m m') (es : List GgufEntry) : Covers (es.foldl .add m) (es.foldl .add m') := by
  induction es generalizing m m' with
  | nil => exact covers
  | cons e es ih => exact ih (covers.add e)

end Covers

variable [Floats R]

/-- The sizes read so far are integers that an `int` can hold. -/
def Sized (m : GgufMetadata R) : Prop :=
  ∀ k ∈ geometryKeys, ∀ x, m.nums k = some x → ∃ n : Nat, n < 2 ^ 31 ∧ x = Floats.ofInt n

theorem Sized.num {m : GgufMetadata R} (sized : Sized m) (key : Bytes) {t raw v : Nat}
    (unsigned : GgufEntry.Unsigned ⟨key, .scalar t raw⟩) (below : v ≤ raw) :
    Sized { m with nums := Function.update m.nums key (some (numericOf t v : R)) } := by
  intro k member x found
  by_cases same : k = key
  · subst same
    obtain ⟨type, fits⟩ := unsigned member t raw rfl
    simp only [Function.update_self, Option.some.injEq] at found
    refine ⟨v, by omega, ?_⟩
    rw [← found]
    rcases type with rfl | rfl | rfl | rfl <;> rfl
  · simp only [Function.update_of_ne same] at found
    exact sized k member x found

theorem Sized.of_same {m m' : GgufMetadata R} (sized : Sized m) (nums : m'.nums = m.nums) : Sized m' := by
  intro k member x found
  rw [nums] at found
  exact sized k member x found

theorem Sized.add {m : GgufMetadata R} (sized : Sized m) {e : GgufEntry} (unsigned : e.Unsigned) : Sized (m.add e) := by
  obtain ⟨key, value⟩ := e
  cases value with
  | scalar t raw => exact sized.num key unsigned le_rfl
  | str text => exact sized
  | array et elems =>
    apply sized.of_same
    unfold GgufMetadata.add
    simp only
    split_ifs <;> rfl

/-- What is left of an entry whose value is cut short: some number, a string that is none of those the loader looks
for, or nothing. -/
def cutValue (key : Bytes) : GgufValue → List GgufEntry
  | .scalar t _ => [⟨key, .scalar t 0⟩]
  | .str _ => [⟨key, .str []⟩]
  | .array _ _ => []

/-- What is left of an entry of which `n` bytes are there. One that ends after its key may be taken for a number. -/
def GgufEntry.cut (n : Nat) (e : GgufEntry) : List GgufEntry :=
  if n < 8 + e.key.length then []
  else if n = 8 + e.key.length then [⟨e.key, .scalar 0 0⟩]
  else cutValue e.key e.value

/-- The entries that lie in the first `n` bytes of the metadata. -/
def entriesBefore (n : Nat) : List GgufEntry → List GgufEntry
  | [] => []
  | e :: es => if e.encode.length ≤ n then e :: entriesBefore (n - e.encode.length) es else e.cut n

theorem entriesBefore_zero (es : List GgufEntry) : entriesBefore 0 es = [] := by
  cases es with
  | nil => rfl
  | cons e es =>
    have size := e.encode_length
    rw [entriesBefore, if_neg (by omega), GgufEntry.cut, if_pos (by omega)]

/-- A value that is cut short, under whatever key. -/
theorem parseValue_cut {stack : Nat} (m : GgufMetadata R) (key : Bytes) {v : GgufValue} (well : v.WellFormed)
    (deep : v.frames ≤ stack) (zeros : z → s.Zeroed) (part : s.rest <+: v.payload)
    (short : s.rest.length < v.payload.length) :
    Settles z (parseValue stack m key v.type) s fun m' s' =>
      Drained z s' ∧ Covers m' ((cutValue key v).foldl .add m) ∧ Covers ((cutValue key v).foldl .add m) m' ∧
        (z → Sized m → GgufEntry.Unsigned ⟨key, v⟩ → Sized m') := by
  cases v with
  | scalar t raw =>
    have numeric : isNumericType (GgufValue.scalar t raw).type := well.1
    have notString : (GgufValue.scalar t raw).type ≠ 8 := (isNumericType_iff.mp numeric).2.1
    rw [GgufValue.payload, littleEndian_length] at short
    rw [GgufValue.payload] at part
    rw [parseValue, if_neg notString, if_pos numeric]
    apply (readNumeric_cut numeric well.2 zeros part short).bind
    rintro x s' ⟨dead, value⟩
    refine settles_pure ⟨dead, (Covers.refl m).num key _ _, (Covers.refl m).num key _ _, fun holds sized unsigned => ?_⟩
    obtain ⟨v, below, rfl⟩ := value holds
    exact sized.num key unsigned below
  | str text =>
    have string : (GgufValue.str text).type = 8 := rfl
    rw [parseValue, if_pos string]
    apply (readGgufString_cut (z := z) well zeros part short).bind
    rintro v s' ⟨dead, blank⟩
    have empty : Blank [] := rfl
    exact settles_pure ⟨dead, (Covers.refl m).str key (.inr blank), (Covers.refl m).str key (.inr empty),
      fun _ sized _ => sized⟩
  | array et elems =>
    apply (parseArray_cut m key well deep zeros part short).mono
    rintro m' s' ⟨dead, nums, strs⟩
    exact ⟨dead, .of_same nums strs, .of_same nums.symm strs.symm, fun _ sized _ => sized.of_same nums⟩

/-- A value of whatever type of which nothing is there. -/
theorem parseValue_drained {stack vt : Nat} (m : GgufMetadata R) (key : Bytes) (deep : 2 ≤ stack) (dead : Drained z s)
    (zero : z → vt = 0) :
    Settles z (parseValue stack m key vt) s fun m' s' =>
      Drained z s' ∧ Covers m' (m.add ⟨key, .scalar 0 0⟩) ∧
        (z → Covers (m.add ⟨key, .scalar 0 0⟩) m' ∧ (Sized m → Sized m')) := by
  have cut : ∀ v : GgufValue, v.WellFormed → v.frames ≤ stack → v.type = vt →
      Settles z (parseValue stack m key vt) s fun m' s' =>
        Drained z s' ∧ Covers m' ((cutValue key v).foldl .add m) ∧ Covers ((cutValue key v).foldl .add m) m' ∧
          (z → Sized m → GgufEntry.Unsigned ⟨key, v⟩ → Sized m') := by
    rintro v well deep rfl
    apply parseValue_cut m key well deep dead.zeros
    · rw [dead.rest]
      exact List.nil_prefix
    · rw [dead.rest]
      exact List.length_pos_iff.mpr (GgufValue.payload_ne_nil well)
  by_cases numeric : isNumericType vt
  · have well : (GgufValue.scalar vt 0).WellFormed := ⟨numeric, Nat.pow_pos (by decide)⟩
    apply (cut (.scalar vt 0) well (by rw [GgufValue.frames]; omega) rfl).mono
    rintro m' s' ⟨dead', left, right, sized⟩
    refine ⟨dead', left.trans ((Covers.refl m).num key _ _), fun holds => ⟨((Covers.refl m).num key _ _).trans right, ?_⟩⟩
    intro before
    apply sized holds before
    rintro _ t raw same
    obtain ⟨rfl, rfl⟩ := GgufValue.scalar.inj same
    exact ⟨.inl (zero holds), by decide⟩
  by_cases string : vt = 8
  · apply (cut (.str []) (by decide : 0 < 2 ^ 63) (by rw [GgufValue.frames]; omega) string.symm).mono
    rintro m' s' ⟨dead', left, _, _⟩
    refine ⟨dead', left.trans ?_, fun holds => absurd (string ▸ zero holds) (by decide)⟩
    exact (Covers.blank_str m key (show Blank [] from rfl)).trans (Covers.num_right m key _)
  by_cases array : vt = 9
  · have well : (GgufValue.array 0 []).WellFormed := ⟨by decide, by decide, trivial⟩
    apply (cut (.array 0 []) well (by rw [GgufValue.frames, GgufValue.framesOf]; omega) array.symm).mono
    rintro m' s' ⟨dead', left, _, _⟩
    exact ⟨dead', left.trans (Covers.num_right m key _), fun holds => absurd (array ▸ zero holds) (by decide)⟩
  · rw [parseValue, if_neg string, if_neg numeric, if_neg array]
    apply settles_throw
    intro holds
    rw [zero holds] at numeric
    exact numeric (by decide)

theorem parseEntry_cut {stack : Nat} (m : GgufMetadata R) {e : GgufEntry} (well : e.WellFormed)
    (deep : e.value.frames ≤ stack) (two : 2 ≤ stack) (zeros : z → s.Zeroed) (part : s.rest <+: e.encode)
    (short : s.rest.length < e.encode.length) :
    Settles z (parseEntry stack m) s fun m' s' =>
      Drained z s' ∧ Covers m' ((e.cut s.rest.length).foldl .add m) ∧
        (z → Covers ((e.cut s.rest.length).foldl .add m) m' ∧ (Sized m → e.Unsigned → Sized m')) := by
  apply entryHeader_cut well zeros part short
  · intro noKey key vt s' dead blank zero
    apply (parseValue_drained m key two dead zero).mono
    rintro m' s' ⟨dead, left, right⟩
    rw [GgufEntry.cut, if_pos noKey]
    exact ⟨dead, left.trans (Covers.blank_num m blank _),
      fun holds => ⟨(Covers.num_right m key _).trans (right holds).1, fun sized _ => (right holds).2 sized⟩⟩
  · intro noType vt s' dead zero
    rw [GgufEntry.cut, if_neg (by omega), if_pos noType]
    apply (parseValue_drained m e.key two dead zero).mono
    exact fun m' s' ⟨dead, left, right⟩ => ⟨dead, left, fun holds => ⟨(right holds).1, fun sized _ => (right holds).2 sized⟩⟩
  · intro typed vt s' zeros' part' short' low same
    rw [GgufEntry.cut, if_neg (by omega), if_neg (by omega)]
    by_cases known : vt ≤ 12
    · rw [low known]
      apply (parseValue_cut m e.key well.value deep zeros' part' short').mono
      exact fun m' s' ⟨dead, left, right, sized⟩ => ⟨dead, left, fun holds => ⟨right, sized holds⟩⟩
    · have notNumeric : ¬isNumericType vt := fun numeric => known (isNumericType_iff.mp numeric).1
      rw [parseValue, if_neg (by omega), if_neg notNumeric, if_neg (by omega)]
      apply settles_throw
      intro holds
      rw [same holds] at known
      exact known (type_lt e.value well.value)

/-- The loop over the entries of a file that ends early. -/
theorem parseEntries_cut {stack : Nat} {tail : Bytes} (two : 2 ≤ stack) {es : List GgufEntry}
    (well : ∀ e ∈ es, e.WellFormed ∧ e.value.frames ≤ stack) {m m₀ : GgufMetadata R} {s : InputStream}
    (zeros : z → s.Zeroed) (part : s.rest <+: es.flatMap (·.encode) ++ tail) (left : Covers m m₀)
    (right : z → Covers m₀ m ∧ Sized m ∧ ∀ e ∈ es, e.Unsigned) :
    Settles z (parseEntries stack es.length m) s fun m' _ =>
      Covers m' ((entriesBefore s.rest.length es).foldl .add m₀) ∧
        (z → Covers ((entriesBefore s.rest.length es).foldl .add m₀) m' ∧ Sized m') := by
  induction es generalizing m m₀ s with
  | nil => exact settles_pure ⟨left, fun holds => ⟨(right holds).1, (right holds).2.1⟩⟩
  | cons e es ih =>
    obtain ⟨wellE, deepE⟩ := well e List.mem_cons_self
    have unsigned : z → e.Unsigned ∧ ∀ e ∈ es, e.Unsigned := fun holds => List.forall_mem_cons.mp (right holds).2.2
    have later := @ih fun e member => well e (List.mem_cons_of_mem _ member)
    rw [List.flatMap_cons, List.append_assoc] at part
    rw [List.length_cons, parseEntries]
    rcases prefix_append_cases part with ⟨inside, shorter⟩ | ⟨found, rest⟩
    · apply (parseEntry_cut m wellE deepE two zeros inside shorter).bind
      rintro m' s' ⟨dead, left', right'⟩
      have nothing : s'.rest <+: es.flatMap (·.encode) ++ tail := by
        rw [dead.rest]
        exact List.nil_prefix
      have rest := later dead.zeros nothing (left'.trans (left.addAll (e.cut s.rest.length))) fun holds =>
        ⟨((right holds).1.addAll (e.cut s.rest.length)).trans (right' holds).1,
          (right' holds).2 (right holds).2.1 (unsigned holds).1, (unsigned holds).2⟩
      rw [entriesBefore, if_neg (Nat.not_le.mpr shorter)]
      rwa [dead.rest, List.length_nil, entriesBefore_zero] at rest
    · have good : s.failed = false := by
        have size := e.encode_length
        apply good_of_rest
        intro empty
        rw [empty] at found
        have nothing := congrArg List.length (List.prefix_nil.mp found)
        rw [size, List.length_nil] at nothing
        omega
      apply ((reads_parseEntry m wellE deepE).yields good found).settles.bind
      rintro _ _ ⟨rfl, rfl⟩
      rw [← InputStream.skip_rest] at rest
      have done := later (s := s.skip e.encode.length) zeros rest (left.add e) fun holds =>
        ⟨(right holds).1.add e, (right holds).2.1.add (unsigned holds).1, (unsigned holds).2⟩
      rw [entriesBefore, if_pos found.length_le]
      rwa [InputStream.skip_rest, List.length_drop] at done

theorem readScalar_rest (n : Nat) (s : InputStream) : Yields (readScalar n) s fun _ s' => s'.rest = s.rest.drop n :=
  (readFresh_yields n s).bind fun _ _ facts => yields_pure facts.1

/-- A stream with nothing left gives the loop nothing to see, however often it turns. -/
theorem parseEntries_empty {stack : Nat} (two : 2 ≤ stack) (empty : s.rest = []) (n : Nat) :
    Allows (parseEntries stack n ({} : GgufMetadata R)) s fun m' _ => Covers m' {} := by
  have well : ∀ e ∈ List.replicate n (⟨[], .scalar 0 0⟩ : GgufEntry), e.WellFormed ∧ e.value.frames ≤ stack := by
    intro e member
    rw [List.eq_of_mem_replicate member]
    exact ⟨⟨by decide, by decide, by decide⟩, by rw [GgufValue.frames]; omega⟩
  have part : s.rest <+: (List.replicate n (⟨[], .scalar 0 0⟩ : GgufEntry)).flatMap (·.encode) ++ [] := by
    rw [empty]
    exact List.nil_prefix
  have run := (parseEntries_cut (z := False) two well nofun part (Covers.refl ({} : GgufMetadata R)) nofun).allows
  rw [List.length_replicate, empty, List.length_nil, entriesBefore_zero] at run
  exact run.mono fun _ _ facts => facts.1

namespace GgufFile

variable {f : GgufFile} {stack c : Nat} {unset : Nat → UInt8}

/-- The stream on the first `c` bytes of a file. -/
def opened (f : GgufFile) (c : Nat) (unset : Nat → UInt8) : InputStream := { bytes := f.encode.take c, unset }

theorem opened_rest : (f.opened c unset).rest = f.encode.take c := rfl

/-- The entries that the loader sees of the first `c` bytes. -/
def seen (f : GgufFile) (c : Nat) : List GgufEntry := entriesBefore (c - 24) f.entries

theorem header_found (whole : 24 ≤ c) :
    f.header <+: f.encode.take c ∧ (f.encode.take c).drop 24 <+: f.metadataBytes ++ (f.directoryBytes ++ f.data) := by
  have size := f.header_length
  have taken : f.encode.take c = f.header ++ (f.metadataBytes ++ (f.directoryBytes ++ f.data)).take (c - 24) := by
    rw [encode, List.take_append, size, List.take_of_length_le (by omega)]
  rw [taken, List.drop_left' size]
  exact ⟨List.prefix_append _ _, List.take_prefix _ _⟩

/-- A header that is there whole. -/
theorem reads_header {α : Type} {k : Nat → Nat → GgufReader α} {Q : α → InputStream → Prop} {s : InputStream}
    (well : f.WellFormed R) (good : s.failed = false) (found : f.header <+: s.rest)
    (body : Settles z (k f.tensors.length f.entries.length) (s.skip 24) Q) :
    Settles z (do
      let magic ← readScalar 4
      if magic ≠ kGgufMagic then throw .badMagic
      else
        let _version ← readScalar 4
        let nTensors ← readScalar 8
        let n ← readScalar 8
        k nTensors n) s Q := by
  have version := well.version
  have tensors := well.tensors.1
  have entries := well.entries.1
  unfold header at found
  apply Reads.settles_bind (reads_scalar (by decide)) good found
  intro found
  rw [if_neg (not_not.mpr rfl)]
  refine Reads.settles_bind (s := s.skip _) (reads_scalar (by omega)) good found fun found => ?_
  refine Reads.settles_bind (s := (s.skip _).skip _) (reads_scalar (by omega)) good found fun found => ?_
  rw [← List.append_nil (littleEndian 8 f.entries.length)] at found
  refine Reads.settles_bind (s := ((s.skip _).skip _).skip _) (reads_scalar (by omega)) good found fun _ => ?_
  simpa only [InputStream.skip_skip, littleEndian_length] using body

/-- Once the header is there, the loader sees the entries before the cut, and with zeros in the variables all of them. -/
theorem parseGgufMetadata_settles (well : f.WellFormed R) (deep : f.frames < stack) (whole : 24 ≤ c)
    (inside : c < f.encode.length) (zeros : z → ∀ i, unset i = 0) :
    Settles z (parseGgufMetadata stack) (f.opened c unset) fun m _ =>
      Covers m (metadataOf (f.seen c) : GgufMetadata R) ∧ (z → Covers (metadataOf (f.seen c)) m ∧ Sized m) := by
  have positive := GgufValue.one_le_framesOf (f.entries.map (·.value))
  have two : 2 ≤ stack := by
    unfold frames at deep
    omega
  obtain ⟨header, part⟩ := f.header_found whole
  apply reads_header (s := f.opened c unset) (k := fun _ n => parseEntries stack n {}) well rfl header
  have each : ∀ e ∈ f.entries, e.WellFormed ∧ e.value.frames ≤ stack :=
    fun e member => ⟨well.entries.2 e member, (frames_entry member).trans deep.le⟩
  have rest : ((f.opened c unset).skip 24).rest = (f.encode.take c).drop 24 := InputStream.skip_rest _ _
  have length : ((f.opened c unset).skip 24).rest.length = c - 24 := by
    rw [rest, List.length_drop, List.length_take]
    omega
  rw [← rest] at part
  have run := parseEntries_cut (s := (f.opened c unset).skip 24) two each zeros part (Covers.refl ({} : GgufMetadata R))
    fun _ => ⟨Covers.refl _, nofun, well.geometry⟩
  rwa [length] at run

/-- Wherever the file is cut and whatever is in the variables, it sees no more than those. -/
theorem parseGgufMetadata_allows (well : f.WellFormed R) (deep : f.frames < stack) (inside : c < f.encode.length) :
    Allows (parseGgufMetadata stack) (f.opened c unset) fun m _ => Covers m (metadataOf (f.seen c) : GgufMetadata R) := by
  have positive := GgufValue.one_le_framesOf (f.entries.map (·.value))
  have two : 2 ≤ stack := by
    unfold frames at deep
    omega
  by_cases whole : 24 ≤ c
  · exact (parseGgufMetadata_settles (z := False) well deep whole inside nofun).allows.mono fun _ _ facts => facts.1
  · have none : f.seen c = [] := by
      rw [seen, Nat.sub_eq_zero_of_le (by omega), entriesBefore_zero]
    rw [none]
    unfold parseGgufMetadata
    refine (readScalar_rest 4 _).allows.bind fun magic s₁ rest₁ => ?_
    split
    · exact allows_throw
    refine (readScalar_rest 4 _).allows.bind fun version s₂ rest₂ => ?_
    refine (readScalar_rest 8 _).allows.bind fun nTensors s₃ rest₃ => ?_
    refine (readScalar_rest 8 _).allows.bind fun n s₄ rest₄ => ?_
    apply parseEntries_empty two
    rw [rest₄, rest₃, rest₂, rest₁, opened_rest]
    simp only [List.drop_drop]
    apply List.drop_eq_nil_of_le
    rw [List.length_take]
    omega

end GgufFile

end Mlxforge
