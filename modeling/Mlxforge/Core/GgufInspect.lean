import Mlxforge.Core.GgufReading
import Mlxforge.Lib.Gaps

/-!
`inspect_gguf`: the byte count of every tensor, from the gaps between the data offsets.
-/

namespace Mlxforge

open StreamReader Gaps

variable {R : Type} [Floats R]

/-- `std::sort` of the indices 0 to `n - 1` by a key; indices of equal keys stand in any order. -/
structure IndexSort where
  sort : (n : Nat) → (key : Fin n → Nat) → List (Fin n)
  perm : ∀ n key, (sort n key).Perm (List.finRange n)
  ascending : ∀ n key, (sort n key).Pairwise fun i j => key i ≤ key j

structure GgufTensorMeta where
  name : Bytes := []
  canonical : Bytes := []
  ggmlType : Nat := 0
  shape : List Int := []
  bytes : Nat := 0

structure GgufInspection (R : Type) where
  head : GgufHead R
  tensors : List GgufTensorMeta
  fileBytes : Nat

/-- The loop over the sorted indices: a tensor's data ends where that of the next one starts. -/
def assignSizes (dir : GgufDirectory) (dataEnd : Nat) : (order : List (Fin dir.tensors.length)) →
    (Fin dir.tensors.length → GgufTensorMeta) → Fin dir.tensors.length → GgufTensorMeta
  | [], out => out
  | i :: rest, out =>
    let t := dir.tensors.get i
    let stop := match rest with
      | j :: _ => (dir.tensors.get j).offset
      | [] => dataEnd
    assignSizes dir dataEnd rest (Function.update out i {
      name := t.name
      canonical := (remapGgufKey t.name).getD []
      ggmlType := t.ggmlType
      shape := t.dims.reverse.map (signed 8)
      bytes := wrapSub (2 ^ 64) stop t.offset })

/-- The alignment that the directory is read with. -/
def inspectAlignment (m : GgufMetadata R) : Nat := max 1 (gmIntOr m (.ofAscii "general.alignment") 32 % 2 ^ 64).toNat

def inspectGguf (sort : IndexSort) (stack : Nat) (file : Bytes) (unset : Nat → Nat → UInt8) :
    Except GgufError (GgufInspection R) := do
  let m ← onFile (parseGgufMetadata stack) file (unset 0)
  let head ← modelHeadFromMetadata m
  let dir ← onFile (parseGgufDirectory stack (inspectAlignment m)) file (unset 1)
  let fileBytes := file.length % 2 ^ 64
  let order := sort.sort dir.tensors.length fun i => (dir.tensors.get i).offset
  let out := assignSizes dir (wrapSub (2 ^ 64) fileBytes dir.dataStart) order fun _ => {}
  return { head, tensors := List.ofFn out, fileBytes }

/-! ### The loop -/

section
variable {dir : GgufDirectory} {dataEnd : Nat}

theorem assignSizes_of_not_mem {order : List (Fin dir.tensors.length)} {out : Fin dir.tensors.length → GgufTensorMeta}
    {i : Fin dir.tensors.length} (absent : i ∉ order) : assignSizes dir dataEnd order out i = out i := by
  induction order generalizing out with
  | nil => rfl
  | cons j rest ih =>
    rw [List.mem_cons, not_or] at absent
    obtain ⟨other, absent⟩ := absent
    simp only [assignSizes]
    rw [ih absent, Function.update_of_ne other]

/-- In the sorted order the sizes are the gaps. -/
theorem assignSizes_gaps {order : List (Fin dir.tensors.length)} (once : order.Nodup)
    (out : Fin dir.tensors.length → GgufTensorMeta) :
    (order.map fun i => (assignSizes dir dataEnd order out i).bytes) =
      gaps (2 ^ 64) dataEnd (order.map fun i => (dir.tensors.get i).offset) := by
  induction order generalizing out with
  | nil => rfl
  | cons i rest ih =>
    obtain ⟨absent, once⟩ := List.nodup_cons.mp once
    rw [List.map_cons, List.map_cons, gaps]
    simp only [assignSizes]
    rw [ih once, assignSizes_of_not_mem absent, Function.update_self]
    congr 1
    cases rest <;> rfl

end

/-! ### What the directory holds -/

theorem allows_any {α : Type} (p : GgufReader α) (s : InputStream) : Allows p s fun _ _ => True := fun _ _ _ => trivial

theorem times_allows {α : Type} {p : GgufReader α} {P : α → Prop} (each : ∀ s, Allows p s fun a _ => P a) :
    ∀ n s, Allows (times p n) s fun as _ => ∀ a ∈ as, P a
  | 0, _ => allows_pure (by simp)
  | n + 1, s => by
    refine (each s).bind ?_
    intro a s' holds
    refine (times_allows each n s').bind ?_
    intro as s'' all
    exact allows_pure (List.forall_mem_cons.mpr ⟨holds, all⟩)

theorem readScalar_allows (n : Nat) (s : InputStream) : Allows (readScalar n) s fun v _ => v < 256 ^ n := by
  refine (readFresh_yields n s).allows.bind ?_
  intro bytes s' facts
  obtain ⟨_, _, _, _, length, _⟩ := facts
  apply allows_pure
  rw [← length]
  exact fromLittleEndian_lt bytes

theorem readTensorInfo_allows (s : InputStream) : Allows readTensorInfo s fun t _ => t.offset < 2 ^ 64 := by
  unfold readTensorInfo
  iterate 4
    refine (allows_any _ _).bind ?_
    intro _ _ _
  refine (readScalar_allows 8 _).bind ?_
  intro offset _ below
  exact allows_pure below

theorem parseGgufDirectory_allows (stack alignment : Nat) (s : InputStream) :
    Allows (parseGgufDirectory stack alignment) s fun dir _ => ∀ t ∈ dir.tensors, t.offset < 2 ^ 64 := by
  unfold parseGgufDirectory
  refine (allows_any _ _).bind ?_
  intro magic _ _
  split
  · exact allows_throw
  · iterate 4
      refine (allows_any _ _).bind ?_
      intro _ _ _
    refine (times_allows readTensorInfo_allows _ _).bind ?_
    intro tensors _ small
    refine (allows_any _ _).bind ?_
    intro _ _ _
    exact allows_pure small

theorem offset_lt {stack alignment : Nat} {file : Bytes} {unset : Nat → UInt8} {dir : GgufDirectory}
    (listed : onFile (parseGgufDirectory stack alignment) file unset = .ok dir) : ∀ t ∈ dir.tensors, t.offset < 2 ^ 64 := by
  rcases onFile_cases (parseGgufDirectory_allows stack alignment { bytes := file, unset }) with
    ⟨e, failed⟩ | ⟨dir', s', ran, small⟩
  · rw [failed] at listed
    cases listed
  · rw [ran] at listed
    obtain rfl := Except.ok.inj listed
    exact small

/-! ### The account -/

/-- `out` accounts for the data behind the directory: no tensor has more bytes than the file, and all of them make up what
lies from the first tensor's data, `first` behind the start, to the end of the file. -/
structure Accounted (dir : GgufDirectory) (first : Nat) (out : GgufInspection R) : Prop where
  each : ∀ t ∈ out.tensors, t.bytes ≤ out.fileBytes
  total : (((out.tensors.map (·.bytes)).sum : Nat) : Int) = out.fileBytes - (dir.dataStart + first : Nat)

/-- A run of `inspect_gguf` that returns `out`, with the metadata and the directory of the file. -/
structure Inspection (sort : IndexSort) (stack : Nat) (file : Bytes) (unset : Nat → Nat → UInt8) (m : GgufMetadata R)
    (dir : GgufDirectory) (out : GgufInspection R) : Prop where
  metadata : onFile (parseGgufMetadata stack) file (unset 0) = .ok m
  listed : onFile (parseGgufDirectory stack (inspectAlignment m)) file (unset 1) = .ok dir
  returned : inspectGguf sort stack file unset = .ok out

variable {sort : IndexSort} {stack : Nat} {file : Bytes} {unset : Nat → Nat → UInt8} {m : GgufMetadata R}
  {dir : GgufDirectory} {out : GgufInspection R}

theorem inspection_of_ok (returned : inspectGguf sort stack file unset = .ok out) :
    ∃ m dir, Inspection sort stack file unset m dir out := by
  have ran := returned
  unfold inspectGguf at ran
  obtain ⟨m, metadata, ran⟩ := bind_ok ran
  obtain ⟨head, _, ran⟩ := bind_ok ran
  obtain ⟨dir, listed, _⟩ := bind_ok ran
  exact ⟨m, dir, metadata, listed, returned⟩

theorem Inspection.tensors (inspection : Inspection sort stack file unset m dir out) :
    out.fileBytes = file.length % 2 ^ 64 ∧ out.tensors = List.ofFn (assignSizes dir
      (wrapSub (2 ^ 64) out.fileBytes dir.dataStart) (sort.sort dir.tensors.length fun i => (dir.tensors.get i).offset)
      fun _ => {}) := by
  have ran := inspection.returned
  unfold inspectGguf at ran
  rw [inspection.metadata, ok_bind] at ran
  obtain ⟨head, _, ran⟩ := bind_ok ran
  rw [inspection.listed, ok_bind] at ran
  obtain rfl := pure_ok ran
  exact ⟨rfl, rfl⟩

/-- The reported sizes are the gaps of the offsets in ascending order, in another order. -/
theorem Inspection.sizes_perm (inspection : Inspection sort stack file unset m dir out) : ∃ marks,
    marks.Perm (dir.tensors.map (·.offset)) ∧ marks.Pairwise (· ≤ ·) ∧
      (out.tensors.map (·.bytes)).Perm (gaps (2 ^ 64) (wrapSub (2 ^ 64) out.fileBytes dir.dataStart) marks) := by
  let key : Fin dir.tensors.length → Nat := fun i => (dir.tensors.get i).offset
  have perm := sort.perm dir.tensors.length key
  have once : (sort.sort dir.tensors.length key).Nodup := perm.nodup_iff.mpr (List.nodup_finRange _)
  refine ⟨(sort.sort dir.tensors.length key).map key, ?_, ?_, ?_⟩
  · have all : (List.finRange dir.tensors.length).map key = dir.tensors.map (·.offset) := by
      rw [← List.ofFn_eq_map]
      exact List.ext_getElem (by simp) (by simp [key])
    rw [← all]
    exact perm.map key
  · exact List.pairwise_map.mpr (sort.ascending _ key)
  · rw [inspection.tensors.2, ← assignSizes_gaps once fun _ => {}, List.map_ofFn, List.ofFn_eq_map]
    exact (perm.map _).symm

/-- A sort that keeps the order of equal keys. -/
def stableSort : IndexSort where
  sort n key := (List.finRange n).mergeSort fun i j => key i ≤ key j
  perm _ _ := List.mergeSort_perm _ _
  ascending n key := by
    have sorted := @List.pairwise_mergeSort _ (fun i j : Fin n => decide (key i ≤ key j))
      (fun i j k => by simpa using Nat.le_trans) (fun i j => by simpa using Nat.le_total (key i) (key j)) (List.finRange n)
    simpa using sorted

namespace GgufFile

/-- The inspection of a file of one tensor. -/
theorem inspection_single (f : GgufFile) {info : GgufTensorInfo} (well : tiny.WellFormed ℚ) (same : f.entries = tiny.entries)
    (version : f.version < 2 ^ 32) (single : f.tensors = [info]) (info_well : info.WellFormed)
    (size : f.directoryEnd < 2 ^ 64) : ∃ out : GgufInspection ℚ, Inspection stableSort 3 f.encode (fun _ _ => 0)
      (metadataOf f.entries) ⟨f.tensors, alignUp f.directoryEnd 32⟩ out := by
  have entries := well.entries
  rw [← same] at entries
  have deep : f.frames ≤ 3 := by
    rw [frames, same]
    decide
  have metadata : onFile (parseGgufMetadata 3) f.encode (fun _ => 0) = .ok (metadataOf f.entries : GgufMetadata ℚ) := by
    have run := parseGgufMetadata_run (R := ℚ) version (by simp [single]) (by have bound := entries.1; omega) entries.2
      deep fun _ => 0
    unfold onFile
    rw [run]
    rfl
  have alignment : inspectAlignment (metadataOf f.entries : GgufMetadata ℚ) = 32 := by
    rw [same]
    decide
  have listed : onFile (parseGgufDirectory 3 (inspectAlignment (metadataOf f.entries : GgufMetadata ℚ))) f.encode
      (fun _ => 0) = .ok ⟨f.tensors, alignUp f.directoryEnd 32⟩ := by
    rw [alignment]
    refine parseGgufDirectory_listed version (by simp [single]) ?_ (by have bound := entries.1; omega) entries.2 deep
      size _ _
    intro t member
    rw [single, List.mem_singleton] at member
    rw [member]
    exact info_well
  have accepted : Accepted (metadataOf f.entries : GgufMetadata ℚ) := by
    rw [same]
    exact ⟨.ofAscii "llama", by decide, by decide, by decide⟩
  have sized : Sized (metadataOf f.entries : GgufMetadata ℚ) := by
    rw [same]
    exact metadataOf_sized well
  obtain ⟨head, headOk, _⟩ := accepted.head sized
  have returned : ∃ out, inspectGguf (R := ℚ) stableSort 3 f.encode (fun _ _ => 0) = .ok out := by
    unfold inspectGguf
    rw [metadata, ok_bind, headOk, ok_bind, listed, ok_bind]
    exact ⟨_, rfl⟩
  obtain ⟨out, returned⟩ := returned
  exact ⟨out, metadata, listed, returned⟩

/-- All of `tiny` but its data: what is left when the file is cut behind the directory. -/
def tinyHead : GgufFile := { tiny with data := [] }

theorem tinyTensor_wellFormed : (⟨.ofAscii "token_embd.weight", kGgmlF32, [1], 0⟩ : GgufTensorInfo).WellFormed :=
  ⟨by decide, by decide, by decide, by decide, by decide, by decide, by decide, by decide, by decide⟩

end GgufFile

end Mlxforge
