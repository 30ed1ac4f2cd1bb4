import Mlxforge.Core.ModelSource
import Mlxforge.Json.Value

/-!
# Downloads from the hub

Which files of a repository are downloaded, and what a download opens, renames and removes.
-/

namespace Mlxforge

namespace HfDownload

open FsPath (Place join locate)
open ModelSource (toLower nameContains)

def endsWith (s suffix : Bytes) : Bool := decide (suffix <:+ s)

def endsWithCi (s suffix : Bytes) : Bool :=
  decide (suffix.length ≤ s.length) && toLower (s.drop (s.length - suffix.length)) == toLower suffix

def parseRepoSiblings (info : Json) : List Bytes :=
  match info.find? "siblings" with
  | some (.arr siblings) =>
    siblings.filterMap fun s =>
      match s.find? "rfilename" with
      | some (.str file) => some file
      | _ => none
  | _ => []

def configJson : Bytes := .ofAscii "config.json"

/-- The names that the engine or its tokenizer may read. -/
def kKeep : List Bytes :=
  [configJson, .ofAscii "generation_config.json", .ofAscii "model.safetensors.index.json", .ofAscii "tokenizer.json",
    .ofAscii "tokenizer_config.json", .ofAscii "tokenizer.model", .ofAscii "special_tokens_map.json",
    .ofAscii "added_tokens.json", .ofAscii "vocab.json", .ofAscii "merges.txt"]

def isSafetensors (f : Bytes) : Bool := endsWith f (.ofAscii ".safetensors")

def selectFilesToDownload (siblings : List Bytes) : Except Bytes (List Bytes) :=
  let out := siblings.filter fun f => isSafetensors f || kKeep.contains f
  if !out.contains configJson then .error (.ofAscii "hf: repo has no config.json")
  else if !out.any isSafetensors then
    .error (.ofAscii ("hf: repo has no .safetensors weights; for a GGUF repo pass 'org/name:VARIANT' " ++
      "(e.g. 'org/name:Q4_0') to fetch a single .gguf"))
  else .ok out

/-- The files that the tag names. -/
def ggufMatches (siblings : List Bytes) (tag : Bytes) : List Bytes :=
  (siblings.filter fun f => endsWithCi f (.ofAscii ".gguf")).filter fun f => nameContains f tag

def joinNames (names : List Bytes) : Bytes := (names.intersperse (.ofAscii ", ")).flatten

def selectGgufFile (siblings : List Bytes) (tag : Bytes) : Except Bytes Bytes :=
  let ggufs := siblings.filter fun f => endsWithCi f (.ofAscii ".gguf")
  if ggufs = [] then .error (.ofAscii "hf: repo has no .gguf files")
  else
    match ggufMatches siblings tag with
    | [] =>
      .error (.ofAscii "hf: no .gguf matches variant '" ++ tag ++ .ofAscii "' (available: " ++ joinNames ggufs ++ .ofAscii ")")
    | [f] => .ok f
    | fs => .error (.ofAscii "hf: variant '" ++ tag ++ .ofAscii "' is ambiguous, matches: " ++ joinNames fs)

/-! ### Downloads -/

/-- What a download does to files. -/
inductive FileOp where
  | openForWriting (path : Bytes)
  | rename (source target : Bytes)
  /-- With everything below it. -/
  | remove (path : Bytes)
  deriving DecidableEq

/-- What the network and the disk answer: to the creation of the directory, to each file, and to the last renaming. -/
structure Transfer where
  create : Except Bytes Unit
  fetch : Bytes → Except Bytes Unit
  finalize : Except Bytes Unit

def Transfer.complete : Transfer := ⟨.ok (), fun _ => .ok (), .ok ()⟩

section
variable (t : Transfer)

def downloadFile (file outPath : Bytes) : List FileOp × Except Bytes Unit := ([.openForWriting outPath], t.fetch file)

def downloadFiles (dir : Bytes) : List Bytes → List FileOp × Except Bytes Unit
  | [] => ([], .ok ())
  | file :: files =>
    let (ops, result) := downloadFile t file (join dir file)
    match result with
    | .error e => (ops, .error e)
    | .ok () =>
      let (more, result) := downloadFiles dir files
      (ops ++ more, result)

def incomplete (pid : Nat) : Bytes := .ofAscii ".incomplete-" ++ .ofAscii (toString pid)

def unparsed (repo : Bytes) : Bytes := .ofAscii "hf: could not parse model-info for '" ++ repo ++ .ofAscii "'"

/-- `hf_download_repo`. `info` is the parsed listing, if it is one. A failed download removes its temporary directory. -/
def hfDownloadRepo (repo : Bytes) (info : Option Json) (destDir : Bytes) (pid : Nat) : List FileOp × Except Bytes Bytes :=
  match info with
  | none => ([], .error (unparsed repo))
  | some info =>
    match selectFilesToDownload (parseRepoSiblings info) with
    | .error e => ([], .error e)
    | .ok files =>
      let tmpDir := destDir ++ incomplete pid
      match t.create with
      | .error e => ([.remove tmpDir], .error e)
      | .ok () =>
        let (ops, result) := downloadFiles t tmpDir files
        match result with
        | .error e => (.remove tmpDir :: (ops ++ [.remove tmpDir]), .error e)
        | .ok () =>
          match t.finalize with
          | .error e => (.remove tmpDir :: (ops ++ [.remove destDir, .rename tmpDir destDir, .remove tmpDir]), .error e)
          | .ok () => (.remove tmpDir :: (ops ++ [.remove destDir, .rename tmpDir destDir]), .ok destDir)

/-- `hf_download_gguf`. A failed download removes its temporary file. -/
def hfDownloadGguf (present : Bytes → Bool) (repo : Bytes) (info : Option Json) (destDir tag : Bytes) (pid : Nat) :
    List FileOp × Except Bytes Bytes :=
  match info with
  | none => ([], .error (unparsed repo))
  | some info =>
    match selectGgufFile (parseRepoSiblings info) tag with
    | .error e => ([], .error e)
    | .ok file =>
      match t.create with
      | .error e => ([], .error e)
      | .ok () =>
        let finalPath := join destDir file
        if present finalPath then ([], .ok finalPath)
        else
          let tmpPath := join destDir (file ++ incomplete pid)
          let (ops, result) := downloadFile t file tmpPath
          match result with
          | .error e => (ops ++ [.remove tmpPath], .error e)
          | .ok () =>
            match t.finalize with
            | .error e => (ops ++ [.rename tmpPath finalPath, .remove tmpPath], .error e)
            | .ok () => (ops ++ [.rename tmpPath finalPath], .ok finalPath)

end

/-! ### Selections -/

theorem selectGgufFile_ok_iff {siblings : List Bytes} {tag f : Bytes} :
    selectGgufFile siblings tag = .ok f ↔ ggufMatches siblings tag = [f] := by
  simp only [selectGgufFile]
  by_cases empty : siblings.filter (fun f => endsWithCi f (.ofAscii ".gguf")) = []
  · rw [if_pos empty, ggufMatches, empty]
    constructor <;> intro h <;> cases h
  · rw [if_neg empty]
    constructor
    · intro chosen
      split at chosen
      · cases chosen
      next g single => rwa [← Except.ok.inj chosen]
      · cases chosen
    · intro single
      rw [single]

theorem mem_ggufMatches {siblings : List Bytes} {tag f : Bytes} :
    f ∈ ggufMatches siblings tag ↔ f ∈ siblings ∧ endsWithCi f (.ofAscii ".gguf") = true ∧ nameContains f tag = true := by
  rw [ggufMatches, List.mem_filter, List.mem_filter, and_assoc]

end HfDownload

end Mlxforge
