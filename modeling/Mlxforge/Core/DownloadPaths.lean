import Mlxforge.Core.HfDownload

/-!
# Where downloads write

The names of a repository's files come from the network, and are joined to the directory as they are.
-/

namespace Mlxforge.HfDownload

open FsPath (Place Plain join locate components climb enter isAbsolute)

/-- The files an operation opens for writing or renames into place. -/
def FileOp.written : FileOp → List Bytes
  | .openForWriting p => [p]
  | .rename _ target => [target]
  | .remove _ => []

def written (ops : List FileOp) : List Bytes := ops.flatMap FileOp.written

/-- The destination and its temporary sibling. -/
def allowed (cwd : Place) (destDir : Bytes) (pid : Nat) : List Place :=
  [locate cwd destDir, locate cwd (destDir ++ incomplete pid)]

/-- A path leads into one of the places. -/
def Inside (places : List Place) (cwd : Place) (p : Bytes) : Prop := ∃ d ∈ places, d <+: locate cwd p

/-- A name that does not lead out of `base`, unless it names the way back in: it is relative and climbs no further than it
went down, or it spells one of the places from where it climbs to or from the root. -/
def Inward (places : List Place) (base : Place) (name : Bytes) : Prop :=
  let walk := climb (components name)
  if isAbsolute name then ∃ d ∈ places, d <+: walk.down
  else walk.up = 0 ∨ ∃ d ∈ places, d <+: base.take (base.length - walk.up) ++ walk.down

variable {cwd base : Place} {places : List Place} {name dir : Bytes}

theorem inside_join_iff (member : locate cwd dir ∈ places) :
    Inside places cwd (join dir name) ↔ Inward places (locate cwd dir) name := by
  rw [Inside, Inward]
  cases absolute : isAbsolute name with
  | true =>
    rw [FsPath.locate_join_absolute absolute, FsPath.foldl_enter]
    simp
  | false =>
    rw [FsPath.locate_join absolute, FsPath.foldl_enter]
    simp only [Bool.false_eq_true, if_false]
    constructor
    · exact .inr
    · rintro (level | inside)
      · refine ⟨_, member, ?_⟩
        rw [level, Nat.sub_zero, List.take_length]
        exact List.prefix_append _ _
      · exact inside

theorem inward_plain (plain : Plain name) : Inward places base name := by
  have walk : climb [name] = { up := 0, down := [name] } := by
    rw [climb, List.foldl_cons, List.foldl_nil, FsPath.Climb.step, if_neg plain.2.2.2, List.nil_append]
  rw [Inward, plain.relative, plain.components, walk]
  exact .inl rfl

theorem inward_kKeep (kept : name ∈ kKeep) : Inward places base name := by
  have all : ∀ name ∈ kKeep, FsPath.slash ∉ name ∧ name ≠ [] ∧ name ≠ FsPath.dot ∧ name ≠ FsPath.dotdot := by
    decide +kernel
  exact inward_plain (all name kept)

/-! ### What is written -/

theorem written_downloadFiles {t : Transfer} {files : List Bytes} {p : Bytes}
    (opened : p ∈ written (downloadFiles t dir files).1) : ∃ f ∈ files, p = join dir f := by
  induction files with
  | nil => cases opened
  | cons file files ih =>
    rw [downloadFiles] at opened
    simp only [downloadFile] at opened
    cases fetched : t.fetch file with
    | error e =>
      rw [fetched] at opened
      exact ⟨file, by simp, by simpa [written, FileOp.written] using opened⟩
    | ok u =>
      rw [fetched] at opened
      simp only [written, List.cons_append, List.nil_append, List.flatMap_cons, FileOp.written, List.mem_cons] at opened
      rcases opened with rfl | opened
      · exact ⟨file, by simp, rfl⟩
      · obtain ⟨f, member, same⟩ := ih opened
        exact ⟨f, List.mem_cons_of_mem _ member, same⟩

theorem downloadFiles_complete (dir : Bytes) (files : List Bytes) :
    downloadFiles .complete dir files = (files.map fun f => .openForWriting (join dir f), .ok ()) := by
  induction files with
  | nil => rfl
  | cons file files ih =>
    rw [downloadFiles, ih]
    rfl

theorem written_append (ops more : List FileOp) : written (ops ++ more) = written ops ++ written more :=
  List.flatMap_append

variable {repo dest : Bytes} {pid : Nat} {info : Json} {files : List Bytes}

/-- A download of a repository writes its selected files and the destination. -/
theorem written_repo {t : Transfer} {p : Bytes} (chosen : selectFilesToDownload (parseRepoSiblings info) = .ok files)
    (opened : p ∈ written (hfDownloadRepo t repo (some info) dest pid).1) :
    p = dest ∨ ∃ f ∈ files, p = join (dest ++ incomplete pid) f := by
  rw [hfDownloadRepo] at opened
  simp only [chosen] at opened
  cases created : t.create with
  | error e =>
    rw [created] at opened
    cases opened
  | ok u =>
    rw [created] at opened
    cases downloaded : downloadFiles t (dest ++ incomplete pid) files with
    | mk ops result =>
      have from_ : ∀ p ∈ written ops, ∃ f ∈ files, p = join (dest ++ incomplete pid) f := by
        intro p member
        apply written_downloadFiles (t := t)
        rwa [downloaded]
      have cases_ : p ∈ written ops ∨ p = dest := by
        rw [downloaded] at opened
        cases result with
        | error e => exact .inl (by simpa [written, FileOp.written] using opened)
        | ok u =>
          cases finished : t.finalize with
          | error e =>
            rw [finished] at opened
            simpa [written, FileOp.written] using opened
          | ok u =>
            rw [finished] at opened
            simpa [written, FileOp.written] using opened
      exact cases_.elim (fun member => .inr (from_ p member)) .inl

theorem written_repo_complete (repo dest : Bytes) (pid : Nat) (chosen : selectFilesToDownload (parseRepoSiblings info) = .ok files) {f : Bytes}
    (member : f ∈ files) : join (dest ++ incomplete pid) f ∈ written (hfDownloadRepo .complete repo (some info) dest pid).1 := by
  rw [hfDownloadRepo]
  simp only [chosen, downloadFiles_complete]
  rw [Transfer.complete]
  simp only [written, FileOp.written, List.flatMap_cons, List.flatMap_append, List.flatMap_map, List.nil_append]
  exact List.mem_append_left _ (List.mem_flatMap.mpr ⟨f, member, by simp⟩)

theorem selectFiles_ok_iff {siblings : List Bytes} : selectFilesToDownload siblings = .ok files ↔
    files = siblings.filter (fun f => isSafetensors f || kKeep.contains f) ∧ configJson ∈ siblings ∧
      ∃ f ∈ siblings, isSafetensors f = true := by
  have config : configJson ∈ siblings.filter (fun f => isSafetensors f || kKeep.contains f) ↔ configJson ∈ siblings := by
    rw [List.mem_filter]
    exact and_iff_left (by decide +kernel)
  have weights : (siblings.filter fun f => isSafetensors f || kKeep.contains f).any isSafetensors = true ↔
      ∃ f ∈ siblings, isSafetensors f = true := by
    rw [List.any_eq_true]
    constructor
    · intro ⟨f, member, safe⟩
      exact ⟨f, (List.mem_filter.mp member).1, safe⟩
    · intro ⟨f, member, safe⟩
      exact ⟨f, List.mem_filter.mpr ⟨member, by simp [safe]⟩, safe⟩
  simp only [selectFilesToDownload, Bool.not_eq_true', ← Bool.not_eq_true, List.contains_iff_mem, config]
  by_cases listed : configJson ∈ siblings
  · by_cases safe : ∃ f ∈ siblings, isSafetensors f = true
    · rw [if_neg (not_not.mpr listed), weights.mpr safe]
      constructor
      · intro chosen
        exact ⟨(Except.ok.inj chosen).symm, listed, safe⟩
      · intro ⟨same, _⟩
        rw [same]
        rfl
    · have none : (siblings.filter fun f => isSafetensors f || kKeep.contains f).any isSafetensors = false := by
        by_contra some
        exact safe (weights.mp (by simpa using some))
      rw [if_neg (not_not.mpr listed), none]
      constructor
      · intro chosen
        cases chosen
      · intro ⟨_, _, held⟩
        exact absurd held safe
  · rw [if_pos listed]
    constructor
    · intro chosen
      cases chosen
    · intro ⟨_, held, _⟩
      exact absurd held listed

/-- A download of a variant writes the file of that name, under its temporary name first. -/
theorem written_gguf {t : Transfer} {present : Bytes → Bool} {tag f p : Bytes}
    (only : ggufMatches (parseRepoSiblings info) tag = [f])
    (opened : p ∈ written (hfDownloadGguf t present repo (some info) dest tag pid).1) :
    present (join dest f) = false ∧ (p = join dest (f ++ incomplete pid) ∨ p = join dest f) := by
  rw [hfDownloadGguf] at opened
  simp only [selectGgufFile_ok_iff.mpr only] at opened
  cases created : t.create with
  | error e =>
    rw [created] at opened
    cases opened
  | ok u =>
    rw [created] at opened
    cases there : present (join dest f) with
    | true =>
      rw [there] at opened
      cases opened
    | false =>
      refine ⟨rfl, ?_⟩
      rw [there] at opened
      simp only [downloadFile, Bool.false_eq_true, if_false] at opened
      cases fetched : t.fetch f with
      | error e =>
        rw [fetched] at opened
        exact .inl (by simpa [written, FileOp.written] using opened)
      | ok u =>
        rw [fetched] at opened
        cases finished : t.finalize with
        | error e =>
          rw [finished] at opened
          simpa [written, FileOp.written] using opened
        | ok u =>
          rw [finished] at opened
          simpa [written, FileOp.written] using opened

theorem written_gguf_complete (repo : Bytes) (pid : Nat) {present : Bytes → Bool} {tag f : Bytes}
    (only : ggufMatches (parseRepoSiblings info) tag = [f]) (absent : present (join dest f) = false) :
    written (hfDownloadGguf .complete present repo (some info) dest tag pid).1 =
      [join dest (f ++ incomplete pid), join dest f] := by
  rw [hfDownloadGguf]
  simp only [selectGgufFile_ok_iff.mpr only, absent, Transfer.complete]
  rfl

theorem written_gguf_unmatched {t : Transfer} {present : Bytes → Bool} {tag : Bytes}
    (none : ∀ f, ggufMatches (parseRepoSiblings info) tag ≠ [f]) :
    (hfDownloadGguf t present repo (some info) dest tag pid).1 = [] := by
  rw [hfDownloadGguf]
  cases chosen : selectGgufFile (parseRepoSiblings info) tag with
  | error e => rfl
  | ok f => exact absurd (selectGgufFile_ok_iff.mp chosen) (none f)

/-! ### Containment -/

/-- The weights of a repository that can be downloaded stay in the temporary directory or lead into the destination. -/
def RepoInward (cwd : Place) (dest : Bytes) (pid : Nat) (info : Json) : Prop :=
  configJson ∈ parseRepoSiblings info → ∀ f ∈ parseRepoSiblings info, isSafetensors f = true →
    Inward (allowed cwd dest pid) (locate cwd (dest ++ incomplete pid)) f

/-- The file that the tag names does, with its temporary name, unless it is there already. -/
def GgufInward (cwd : Place) (present : Bytes → Bool) (dest tag : Bytes) (pid : Nat) (info : Json) : Prop :=
  ∀ f, ggufMatches (parseRepoSiblings info) tag = [f] → present (join dest f) = false →
    Inward (allowed cwd dest pid) (locate cwd dest) f ∧
      Inward (allowed cwd dest pid) (locate cwd dest) (f ++ incomplete pid)

theorem repo_inside_iff (cwd : Place) (repo dest : Bytes) (pid : Nat) (info : Json) :
    (∀ t, ∀ p ∈ written (hfDownloadRepo t repo (some info) dest pid).1, Inside (allowed cwd dest pid) cwd p) ↔
      RepoInward cwd dest pid info := by
  have tmp : locate cwd (dest ++ incomplete pid) ∈ allowed cwd dest pid := by simp [allowed]
  constructor
  · intro inside config f member safe
    rw [← inside_join_iff tmp]
    have chosen := selectFiles_ok_iff.mpr ⟨rfl, config, f, member, safe⟩
    exact inside .complete _ (written_repo_complete repo dest pid chosen (List.mem_filter.mpr ⟨member, by simp [safe]⟩))
  · intro inward t p opened
    cases chosen : selectFilesToDownload (parseRepoSiblings info) with
    | error e =>
      rw [hfDownloadRepo] at opened
      simp only [chosen] at opened
      cases opened
    | ok files =>
      obtain ⟨rfl, config, _⟩ := selectFiles_ok_iff.mp chosen
      rcases written_repo chosen opened with rfl | ⟨f, member, rfl⟩
      · exact ⟨locate cwd p, by simp [allowed], List.prefix_rfl⟩
      · rw [inside_join_iff tmp]
        obtain ⟨listed, kept⟩ := List.mem_filter.mp member
        rw [Bool.or_eq_true, List.contains_iff_mem] at kept
        exact kept.elim (inward config f listed) inward_kKeep

theorem gguf_inside_iff (cwd : Place) (present : Bytes → Bool) (repo dest tag : Bytes) (pid : Nat) (info : Json) :
    (∀ t, ∀ p ∈ written (hfDownloadGguf t present repo (some info) dest tag pid).1, Inside (allowed cwd dest pid) cwd p) ↔
      GgufInward cwd present dest tag pid info := by
  have here : locate cwd dest ∈ allowed cwd dest pid := by simp [allowed]
  constructor
  · intro inside f only absent
    have opened := written_gguf_complete repo pid only absent
    rw [← inside_join_iff here, ← inside_join_iff here]
    exact ⟨inside .complete _ (by rw [opened]; simp), inside .complete _ (by rw [opened]; simp)⟩
  · intro inward t p opened
    by_cases single : ∃ f, ggufMatches (parseRepoSiblings info) tag = [f]
    · obtain ⟨f, only⟩ := single
      obtain ⟨absent, rfl | rfl⟩ := written_gguf only opened
      · exact (inside_join_iff here).mpr (inward f only absent).2
      · exact (inside_join_iff here).mpr (inward f only absent).1
    · rw [written_gguf_unmatched (not_exists.mp single)] at opened
      cases opened

/-- Both downloads stay in the destination and its temporary sibling exactly if the names they are given do. -/
theorem downloads_inside_iff (cwd : Place) (present : Bytes → Bool) (repo dest tag : Bytes) (pid : Nat) (info : Option Json) :
    ((∀ t, ∀ p ∈ written (hfDownloadRepo t repo info dest pid).1, Inside (allowed cwd dest pid) cwd p) ↔
        ∀ listing, info = some listing → RepoInward cwd dest pid listing) ∧
      ((∀ t, ∀ p ∈ written (hfDownloadGguf t present repo info dest tag pid).1, Inside (allowed cwd dest pid) cwd p) ↔
        ∀ listing, info = some listing → GgufInward cwd present dest tag pid listing) := by
  cases info with
  | none =>
    have empty : ∀ t : Transfer, (hfDownloadRepo t repo none dest pid).1 = [] ∧
        (hfDownloadGguf t present repo none dest tag pid).1 = [] := fun t => ⟨rfl, rfl⟩
    simp [empty, written]
  | some info =>
    simp only [repo_inside_iff, gguf_inside_iff, Option.some.injEq, forall_eq', and_self]

/-- A response whose weights are to be written two directories up. -/
def climbing : Json :=
  .obj [(.ofAscii "siblings", .arr [.obj [(.ofAscii "rfilename", .str configJson)],
    .obj [(.ofAscii "rfilename", .str (.ofAscii "../../x.safetensors"))]])]

theorem downloads_escape :
    ¬∀ (cwd : Place) (repo dest : Bytes) (pid : Nat) (info : Option Json) (t : Transfer),
      ∀ p ∈ written (hfDownloadRepo t repo info dest pid).1, Inside (allowed cwd dest pid) cwd p := by
  intro inside
  have chosen : selectFilesToDownload (parseRepoSiblings climbing) = .ok [configJson, .ofAscii "../../x.safetensors"] :=
    selectFiles_ok_iff.mpr ⟨by decide +kernel, by decide +kernel, .ofAscii "../../x.safetensors", by decide +kernel,
      by decide +kernel⟩
  have opened := written_repo_complete (.ofAscii "o/n") (.ofAscii "/c/o__n") 7 chosen
    (f := .ofAscii "../../x.safetensors") (by simp)
  obtain ⟨d, member, within⟩ := inside [] _ _ _ (some climbing) _ _ opened
  revert within
  revert d
  decide +kernel

end Mlxforge.HfDownload
