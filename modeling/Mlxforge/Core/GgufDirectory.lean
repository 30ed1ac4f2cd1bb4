import Mlxforge.Core.GgufPrefix

/-!
What `parse_gguf_directory` makes of a file that ends early: for some contents of its variables it returns, and lists
tensors of the file and tensors without a name.
-/

namespace Mlxforge

open StreamReader

variable {s : InputStream} {stack : Nat}

theorem skipEntry_cut {e : GgufEntry} (well : e.WellFormed) (deep : e.value.frames ≤ stack) (zeros : True → s.Zeroed)
    (part : s.rest <+: e.encode) (short : s.rest.length < e.encode.length) :
    Settles True (skipEntry stack) s fun _ s' => Drained True s' := by
  have one : 1 ≤ stack := by
    have : 1 ≤ e.value.frames := by
      cases e.value <;> simp [GgufValue.frames]
    omega
  have skipZero : ∀ {s : InputStream}, Drained True s →
      Settles True (skipMetadataValue stack 0) s fun _ s' => Drained True s' := by
    intro s dead
    apply GgufValue.skip_cut (.scalar 0 0) ⟨by decide, by decide⟩ (by rw [GgufValue.frames]; omega) dead.zeros
    · rw [dead.rest]
      exact List.nil_prefix
    · rw [dead.rest]
      decide
  apply entryHeader_cut (k := fun _ type => skipMetadataValue stack type) well zeros part short
  · intro _ key type s' dead _ zero
    rw [zero trivial]
    exact skipZero dead
  · intro _ type s' dead zero
    rw [zero trivial]
    exact skipZero dead
  · intro _ type s' zeros' part' short' _ same
    rw [same trivial]
    exact GgufValue.skip_cut e.value well.value deep zeros' part' short'

/-- A tensor of the directory that loads: one of the file's, or one whose name was not there whole. -/
def Harmless (t : GgufTensorInfo) : Prop := t.WellFormed ∨ Blank t.name ∧ t.ggmlType = kGgmlF32 ∧ t.dims = []

/-- What follows the name. -/
def readTensorFields (name : Bytes) : GgufReader GgufTensorInfo := do
  let nd ← readScalar 4
  let dims ← times (readScalar 8) nd
  let ggmlType ← readScalar 4
  let offset ← readScalar 8
  return { name, ggmlType, dims, offset }

theorem readTensorInfo_eq : readTensorInfo = readGgufString >>= readTensorFields := rfl

theorem readTensorFields_drained {name : Bytes} (blank : Blank name) (dead : Drained True s) :
    Settles True (readTensorFields name) s fun t s' => Drained True s' ∧ Harmless t := by
  apply (readScalar_drained 4 dead).bind
  rintro nd s₁ ⟨dead₁, _, zero₁⟩
  rw [zero₁ trivial]
  change Settles True (do
    let ggmlType ← readScalar 4
    let offset ← readScalar 8
    return ({ name, ggmlType, dims := [], offset } : GgufTensorInfo)) s₁ _
  apply (readScalar_drained 4 dead₁).bind
  rintro type s₂ ⟨dead₂, _, zero₂⟩
  apply (readScalar_drained 8 dead₂).bind
  rintro offset s₃ ⟨dead₃, _, _⟩
  exact settles_pure ⟨dead₃, .inr ⟨blank, zero₂ trivial, rfl⟩⟩

theorem readTensorInfo_drained (dead : Drained True s) :
    Settles True readTensorInfo s fun t s' => Drained True s' ∧ Harmless t := by
  rw [readTensorInfo_eq]
  apply (readGgufString_drained dead).bind
  rintro name s' ⟨dead', blank⟩
  exact readTensorFields_drained blank dead'

theorem guesses_scalar {n v : Nat} (fits : v < 256 ^ n) : Guesses (readScalar n) (littleEndian n v) v := by
  have guess : Guesses (readScalar n) (littleEndian n v) (fromLittleEndian (littleEndian n v)) := by
    have fresh := guesses_fresh (ε := GgufError) (littleEndian n v)
    have reads := reads_fresh (ε := GgufError) (littleEndian n v)
    rw [littleEndian_length] at fresh reads
    exact fresh.bind_pure reads
  rwa [fromLittleEndian_littleEndian, Nat.mod_eq_of_lt fits] at guess

/-- The fields of a tensor, whether they are all there or not. -/
theorem guesses_tensorFields {t : GgufTensorInfo} (well : t.WellFormed) :
    Guesses (readTensorFields t.name) (littleEndian 4 t.dims.length ++ ((t.dims.flatMap fun d : Nat => littleEndian 8 d) ++
      (littleEndian 4 t.ggmlType ++ littleEndian 8 t.offset))) t := by
  have rank := well.rank.2
  have offset := well.offset
  have type := well.type_lt
  have dimReads : ∀ d ∈ t.dims, Reads (readScalar 8) (littleEndian 8 d) d := by
    intro d member
    have := (well.dims d member).2
    exact reads_scalar (by omega)
  have dimGuesses : ∀ d ∈ t.dims, Guesses (readScalar 8) (littleEndian 8 d) d := by
    intro d member
    have := (well.dims d member).2
    exact guesses_scalar (by omega)
  have dims := guesses_times dimReads dimGuesses
  have dims' := reads_times dimReads
  rw [List.map_id'] at dims dims'
  apply Guesses.bind (guesses_scalar (by omega)) (reads_scalar (by omega))
  apply Guesses.bind dims dims'
  apply Guesses.bind (guesses_scalar type) (reads_scalar type)
  exact (guesses_scalar (by omega)).bind_pure (reads_scalar (by omega))

/-- A tensor that is cut short: for some contents of the variables it is read as it was, or its name is lost. -/
theorem readTensorInfo_cut {t : GgufTensorInfo} (well : t.WellFormed) (part : s.rest <+: t.encode) :
    ∃ unset, Settles True readTensorInfo { s with unset } fun t s' => Drained True s' ∧ Harmless t := by
  rw [readTensorInfo_eq]
  unfold GgufTensorInfo.encode at part
  rcases prefix_append_cases part with ⟨inside, shorter⟩ | ⟨found, rest⟩
  · refine ⟨fun _ => 0, ?_⟩
    apply (readGgufString_cut (s := { s with unset := fun _ => 0 }) well.name (fun _ _ => rfl) inside shorter).bind
    rintro name s' ⟨dead, blank⟩
    exact readTensorFields_drained blank dead
  · obtain ⟨missing, whole⟩ := rest
    refine ⟨supply (missing ++ []), ?_⟩
    have good : s.failed = false := by
      apply good_of_rest
      intro empty
      rw [empty] at found
      have nothing := congrArg List.length (List.prefix_nil.mp found)
      simp [ggufString] at nothing
    apply ((reads_string well.name).yields (s := { s with unset := supply (missing ++ []) }) good found).settles.bind
    rintro _ _ ⟨rfl, rfl⟩
    rw [← InputStream.skip_rest] at whole
    obtain ⟨s', ran, rest, held⟩ := guesses_tensorFields well
      (({ s with unset := supply (missing ++ []) } : InputStream).skip (ggufString t.name).length) missing [] whole rfl
    apply Yields.settles
    refine ⟨t, s', ran, ⟨rest, fun _ i => ?_⟩, .inl well⟩
    rw [held]
    rfl

/-- The loop over the tensors of a file that ends early. -/
theorem readTensorInfos_cut {tail : Bytes} {ts : List GgufTensorInfo} (well : ∀ t ∈ ts, t.WellFormed) {s : InputStream}
    (part : s.rest <+: ts.flatMap (·.encode) ++ tail) :
    ∃ unset, Yields (times readTensorInfo ts.length) { s with unset } fun out _ => ∀ t ∈ out, Harmless t := by
  induction ts generalizing s with
  | nil => exact ⟨s.unset, yields_pure nofun⟩
  | cons t ts ih =>
    have wellT := well t List.mem_cons_self
    rw [List.flatMap_cons, List.append_assoc] at part
    rcases prefix_append_cases part with ⟨inside, _⟩ | ⟨found, rest⟩
    · obtain ⟨unset, first⟩ := readTensorInfo_cut wellT inside
      refine ⟨unset, ?_⟩
      apply (first.yields trivial).bind
      rintro t' s' ⟨dead, harmless⟩
      apply ((times_drained_all (fun _ => readTensorInfo_drained) ts.length dead).yields trivial).bind
      rintro out s'' ⟨_, all⟩
      exact yields_pure (List.forall_mem_cons.mpr ⟨harmless, all⟩)
    · rw [← InputStream.skip_rest] at rest
      obtain ⟨unset, later⟩ := ih (fun t member => well t (List.mem_cons_of_mem _ member)) rest
      refine ⟨unset, ?_⟩
      have good : s.failed = false := by
        apply good_of_rest
        intro empty
        rw [empty] at found
        have nothing := congrArg List.length (List.prefix_nil.mp found)
        simp [GgufTensorInfo.encode, ggufString] at nothing
      apply ((reads_tensorInfo wellT).yields (s := { s with unset }) good found).bind
      rintro _ _ ⟨rfl, rfl⟩
      apply later.bind
      intro out s' all
      exact yields_pure (List.forall_mem_cons.mpr ⟨.inl wellT, all⟩)

namespace GgufFile

variable {R : Type} [Floats R] {f : GgufFile} {c : Nat}

/-- What follows the header. -/
def directoryBody (stack alignment nTensors nKv : Nat) : GgufReader GgufDirectory := do
  let _ ← times (skipEntry stack) nKv
  let tensors ← times readTensorInfo nTensors
  let pos ← tell
  return { tensors, dataStart := alignUp (pos % 2 ^ 64).toNat alignment }

theorem directoryBody_yields {alignment nTensors nKv : Nat} {s : InputStream} {P Q : InputStream → Prop}
    (entries : Yields (times (skipEntry stack) nKv) s fun _ s' => P s')
    (tensors : ∀ s', P s' → Yields (times readTensorInfo nTensors) s' fun ts s'' => (∀ t ∈ ts, Harmless t) ∧ Q s'') :
    Yields (directoryBody stack alignment nTensors nKv) s fun dir _ => ∀ t ∈ dir.tensors, Harmless t := by
  apply entries.bind
  intro _ s' holds
  apply (tensors s' holds).bind
  rintro ts s'' ⟨all, _⟩
  exact ⟨_, s'', rfl, all⟩

/-- Some contents of the variables let the directory be read, wherever the file is cut behind its header. -/
theorem parseGgufDirectory_yields (well : f.WellFormed R) (deep : f.frames < stack) (whole : 24 ≤ c) (alignment : Nat) :
    ∃ unset, Yields (parseGgufDirectory stack alignment) (f.opened c unset) fun dir _ => ∀ t ∈ dir.tensors, Harmless t := by
  obtain ⟨header, part⟩ := f.header_found whole
  have reads : ∀ e ∈ f.entries, Reads (skipEntry stack) e.encode () :=
    fun e member => reads_skipEntry (well.entries.2 e member) ((frames_entry member).trans deep.le)
  have start : ∀ unset, ((f.opened c unset).skip 24).rest = (f.encode.take c).drop 24 :=
    fun _ => InputStream.skip_rest _ _
  suffices body : ∃ unset, Yields (directoryBody stack alignment f.tensors.length f.entries.length)
      ((f.opened c unset).skip 24) fun dir _ => ∀ t ∈ dir.tensors, Harmless t by
    obtain ⟨unset, run⟩ := body
    refine ⟨unset, ?_⟩
    have settles := reads_header (z := True) (s := f.opened c unset) (k := directoryBody stack alignment) well rfl header run.settles
    exact settles.yields trivial
  rcases prefix_append_cases part with ⟨inside, shorter⟩ | ⟨found, rest⟩
  · refine ⟨fun _ => 0, ?_⟩
    rw [← start fun _ => 0] at inside shorter
    have entries := times_cut (z := True) reads (fun e member => ?_) (fun e member s zeros part short => ?_)
      (fun _ _ => rfl) inside shorter
    · apply directoryBody_yields (Q := fun _ => True) (entries.yields trivial)
      intro s' dead
      exact ((times_drained_all (fun _ => readTensorInfo_drained) f.tensors.length dead).yields trivial).mono
        fun _ _ facts => ⟨facts.2, trivial⟩
    · apply List.length_pos_iff.mp
      rw [e.encode_length]
      omega
    · exact skipEntry_cut (well.entries.2 e member) ((frames_entry member).trans deep.le) zeros part short
  · have rest' : (((f.opened c fun _ => 0).skip 24).skip f.metadataBytes.length).rest <+: f.directoryBytes ++ f.data := by
      rw [InputStream.skip_rest, start]
      exact rest
    obtain ⟨unset, later⟩ := readTensorInfos_cut well.tensors.2 rest'
    refine ⟨unset, ?_⟩
    have loop : Reads (times (skipEntry stack) f.entries.length) f.metadataBytes (f.entries.map fun _ => ()) :=
      reads_times reads
    rw [← start unset] at found
    have ran := (loop.yields (s := (f.opened c unset).skip 24) rfl found).mono fun _ _ facts => facts.2
    apply directoryBody_yields (Q := fun _ => True) ran
    rintro s' rfl
    exact later.mono fun _ _ all => ⟨all, trivial⟩

end GgufFile

end Mlxforge
