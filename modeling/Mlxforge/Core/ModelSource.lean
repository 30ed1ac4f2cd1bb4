import Mlxforge.Lib.Except
import Mlxforge.Lib.LexicalPath

/-!
# Model sources

How a model spec is resolved: to a path on disk, to a directory of one of the two caches, or to a download into one.
-/

namespace Mlxforge

open FsPath (join slash)

/-- What the resolver sees of the file system. -/
structure FileSystem where
  exist : Bytes → Bool
  isRegularFile : Bytes → Bool
  isDirectory : Bytes → Bool
  /-- The names in a directory in the order they are listed, and which of them are regular files. -/
  list : Bytes → List (Bytes × Bool)
  firstLine : Bytes → Bytes
  file_exists : ∀ p, isRegularFile p = true → exist p = true
  directory_exists : ∀ p, isDirectory p = true → exist p = true

/-- The environment's overrides, empty where they are unset. -/
structure Env where
  hfHubCache : Bytes := []
  hfHome : Bytes := []
  mlxforgeCache : Bytes := []
  home : Bytes := []

namespace ModelSource

/-- The text with every slash replaced. -/
def flatten (by_ repo : Bytes) : Bytes := repo.flatMap fun c => if c = slash then by_ else [c]

def hfRepoDirname (repo : Bytes) : Bytes := .ofAscii "models--" ++ flatten (.ofAscii "--") repo

def flatCacheName (repo : Bytes) : Bytes := flatten (.ofAscii "__") repo

def isTrimmed (c : UInt8) : Bool := c == 0x20 || c == 0x09 || c == 0x0D || c == 0x0A

def readRef (fs : FileSystem) (path : Bytes) : Bytes := ((fs.firstLine path).dropWhile isTrimmed).rdropWhile isTrimmed

def snapshotFromRepoCache (fs : FileSystem) (dir : Bytes) : Bytes :=
  let hash := readRef fs (join (join dir (.ofAscii "refs")) (.ofAscii "main"))
  if hash = [] then []
  else
    let snap := join (join dir (.ofAscii "snapshots")) hash
    if fs.isDirectory snap then snap else []

def isModelDir (fs : FileSystem) (dir : Bytes) : Bool :=
  fs.isDirectory dir && fs.isRegularFile (join dir (.ofAscii "config.json"))

def isAlnum (c : UInt8) : Bool := (0x30 ≤ c && c ≤ 0x39) || (0x41 ≤ c && c ≤ 0x5A) || (0x61 ≤ c && c ≤ 0x7A)

/-- A character of a repository's name: alphanumeric, `.`, `_` or `-`. -/
def isNameChar (c : UInt8) : Bool := isAlnum c || c == 0x2E || c == 0x5F || c == 0x2D

def looksLikeRepoId (fs : FileSystem) (spec : Bytes) : Bool :=
  if spec = [] then false
  else if fs.exist spec then false
  else
    match spec.idxOf? slash with
    | none => false
    | some i =>
      if slash ∈ spec.drop (i + 1) then false
      else if i = 0 ∨ i = spec.length - 1 then false
      else spec.all fun c => c == slash || isNameChar c

def hfCacheSnapshotDir (fs : FileSystem) (root repo : Bytes) : Bytes :=
  if root = [] then [] else snapshotFromRepoCache fs (join root (hfRepoDirname repo))

def hfHubCacheRoot (env : Env) : Bytes :=
  if env.hfHubCache ≠ [] then env.hfHubCache
  else if env.hfHome ≠ [] then join env.hfHome (.ofAscii "hub")
  else if env.home = [] then []
  else join (join (join env.home (.ofAscii ".cache")) (.ofAscii "huggingface")) (.ofAscii "hub")

def mlxforgeCacheRoot (env : Env) : Bytes :=
  if env.mlxforgeCache ≠ [] then env.mlxforgeCache
  else if env.home = [] then .ofAscii ".mlxforge-cache"
  else join (join env.home (.ofAscii ".cache")) (.ofAscii "mlxforge")

def toLower (s : Bytes) : Bytes := s.map fun c => if 0x41 ≤ c && c ≤ 0x5A then c + 0x20 else c

def hasGgufSuffix (s : Bytes) : Bool := decide (5 ≤ s.length) && toLower (s.drop (s.length - 5)) == .ofAscii ".gguf"

/-- `to_lower(name).find(to_lower(tag)) != npos`. -/
def nameContains (name tag : Bytes) : Bool := decide (toLower tag <:+: toLower name)

def findCachedGguf (fs : FileSystem) (dir tag : Bytes) : Bytes :=
  if !fs.isDirectory dir then []
  else
    match (fs.list dir).find? fun e => e.2 && (hasGgufSuffix e.1 && nameContains e.1 tag) with
    | some e => join dir e.1
    | none => []

/-- The directory for the GGUF files of a repository. -/
def ggufDir (env : Env) (repo : Bytes) : Bytes := join (mlxforgeCacheRoot env) (flatCacheName repo ++ .ofAscii "-gguf")

/-- The directory for a download of a repository. -/
def downloadDir (env : Env) (repo : Bytes) : Bytes := join (mlxforgeCacheRoot env) (flatCacheName repo)

/-- The directory of a repository in the hub cache. -/
def hubDir (env : Env) (repo : Bytes) : Bytes := join (hfHubCacheRoot env) (hfRepoDirname repo)

/-- The outcome of the resolver: a path on disk, or the download that provides it. -/
inductive Resolved where
  | path (p : Bytes)
  | downloadGguf (repo dir tag : Bytes)
  | downloadRepo (repo dest : Bytes)
  deriving DecidableEq

/-- The repository and the variant of an `org/name:VARIANT` spec. -/
def ggufSpec (fs : FileSystem) (spec : Bytes) : Option (Bytes × Bytes) :=
  if fs.exist spec then none
  else
    match spec.idxOf? 0x3A with
    | none => none
    | some colon =>
      let repo := spec.take colon
      let tag := spec.drop (colon + 1)
      if looksLikeRepoId fs repo then some (repo, if tag = [] then .ofAscii "Q4_0" else tag) else none

def resolveModelDir (fs : FileSystem) (env : Env) (spec : Bytes) : Except String Resolved :=
  if hasGgufSuffix spec && fs.isRegularFile spec then .ok (.path spec)
  else if isModelDir fs spec then .ok (.path spec)
  else if fs.exist spec && fs.isDirectory spec then
    let snap := snapshotFromRepoCache fs spec
    if snap ≠ [] ∧ isModelDir fs snap then .ok (.path snap)
    else .error "has no config.json (did you mean its snapshots/<rev>/ subdir?)"
  else
    match ggufSpec fs spec with
    | some (repo, tag) =>
      let dir := ggufDir env repo
      let cached := findCachedGguf fs dir tag
      if cached ≠ [] then .ok (.path cached) else .ok (.downloadGguf repo dir tag)
    | none =>
      if looksLikeRepoId fs spec then
        let hubSnap := hfCacheSnapshotDir fs (hfHubCacheRoot env) spec
        if hubSnap ≠ [] ∧ isModelDir fs hubSnap then .ok (.path hubSnap)
        else
          let dest := downloadDir env spec
          if isModelDir fs dest then .ok (.path dest) else .ok (.downloadRepo spec dest)
      else .error "is neither a directory with config.json nor a HuggingFace repo id (expected 'org/name')"

/-! ### Repositories -/

/-- A repository: two names that are not empty. -/
structure RepoId where
  org : Bytes
  name : Bytes
  org_some : org ≠ []
  name_some : name ≠ []
  legal : ∀ c ∈ org ++ name, isNameChar c = true

namespace RepoId

def text (r : RepoId) : Bytes := r.org ++ slash :: r.name

variable {r r' : RepoId}

theorem slash_notMem (r : RepoId) : slash ∉ r.org ∧ slash ∉ r.name := by
  constructor <;> intro member
  · exact absurd (r.legal slash (List.mem_append_left _ member)) (by decide)
  · exact absurd (r.legal slash (List.mem_append_right _ member)) (by decide)

theorem ext_parts (org : r.org = r'.org) (name : r.name = r'.name) : r = r' := by
  cases r
  cases r'
  simp only [mk.injEq]
  exact ⟨org, name⟩

theorem flatten_text (by_ : Bytes) (r : RepoId) : flatten by_ r.text = r.org ++ (by_ ++ r.name) := by
  have kept : ∀ s : Bytes, slash ∉ s → flatten by_ s = s := by
    intro s absent
    rw [flatten, List.flatMap_congr (g := fun c => [c])]
    · exact List.flatMap_singleton' s
    · intro c member
      exact if_neg (show c ≠ slash from fun same => absent (same ▸ member))
  have parts : flatten by_ r.text = flatten by_ r.org ++ (by_ ++ flatten by_ r.name) := by
    rw [flatten, text, List.flatMap_append, List.flatMap_cons, if_pos rfl, ← flatten, ← flatten]
  rw [parts, kept _ r.slash_notMem.1, kept _ r.slash_notMem.2]

theorem ggufSuffix_legal (r : RepoId) : ∀ c ∈ r.org ++ (r.name ++ .ofAscii "-gguf"), isNameChar c = true := by
  intro c member
  rw [← List.append_assoc] at member
  rcases List.mem_append.mp member with named | suffix
  · exact r.legal c named
  · have all : ∀ c ∈ Bytes.ofAscii "-gguf", isNameChar c = true := by decide +kernel
    exact all c suffix

/-- The repository whose download directory is this one's directory for GGUF files. -/
def gguf (r : RepoId) : RepoId where
  org := r.org
  name := r.name ++ .ofAscii "-gguf"
  org_some := r.org_some
  name_some := by simp [r.name_some]
  legal := r.ggufSuffix_legal

end RepoId

theorem idxOf?_split {s : Bytes} {c : UInt8} {i : Nat} (found : s.idxOf? c = some i) :
    ∃ front rest, s = front ++ c :: rest ∧ i = front.length ∧ c ∉ front := by
  obtain ⟨inside, here, before⟩ := List.idxOf?_eq_some_iff.mp found
  refine ⟨s.take i, s.drop (i + 1), ?_, ?_, ?_⟩
  · rw [← here, List.getElem_cons_drop, List.take_append_drop]
  · rw [List.length_take]
    omega
  · intro member
    obtain ⟨j, early, same⟩ := List.mem_take_iff_getElem.mp member
    exact before j (by omega) same

theorem split_idxOf? {front : Bytes} {c : UInt8} (rest : Bytes) (absent : c ∉ front) :
    (front ++ c :: rest).idxOf? c = some front.length := by
  apply List.idxOf?_eq_some_iff.mpr
  refine ⟨by simp, by simp, ?_⟩
  intro j early same
  rw [List.getElem_append_left early] at same
  exact absent (same ▸ List.getElem_mem early)

/-- The specs that look like repositories are the texts of repositories that are no paths. -/
theorem looksLikeRepoId_iff (fs : FileSystem) (spec : Bytes) :
    looksLikeRepoId fs spec = true ↔ fs.exist spec = false ∧ ∃ r : RepoId, spec = r.text := by
  constructor
  · intro accepted
    unfold looksLikeRepoId at accepted
    split at accepted
    · cases accepted
    split at accepted
    · cases accepted
    next absent =>
    split at accepted
    · cases accepted
    next i found =>
    split at accepted
    · cases accepted
    next single =>
    split at accepted
    · cases accepted
    next inner =>
    obtain ⟨org, name, rfl, rfl, orgPlain⟩ := idxOf?_split found
    have namePlain : slash ∉ name := by simpa using single
    refine ⟨by simpa using absent, ⟨org, name, ?_, ?_, ?_⟩, rfl⟩
    · rintro rfl
      simp at inner
    · rintro rfl
      simp at inner
    · intro c member
      have named : c ≠ slash := by
        rintro rfl
        rcases List.mem_append.mp member with inOrg | inName
        · exact orgPlain inOrg
        · exact namePlain inName
      have each := List.all_eq_true.mp accepted c (by
        rcases List.mem_append.mp member with inOrg | inName
        · exact List.mem_append_left _ inOrg
        · exact List.mem_append_right _ (List.mem_cons_of_mem _ inName))
      simpa [named] using each
  · intro ⟨absent, r, split⟩
    obtain ⟨orgPlain, namePlain⟩ := r.slash_notMem
    have org_some := List.length_pos_iff.mpr r.org_some
    have name_some := List.length_pos_iff.mpr r.name_some
    have found : spec.idxOf? slash = some r.org.length := by rw [split]; exact split_idxOf? _ orgPlain
    have size : spec.length = r.org.length + r.name.length + 1 := by
      rw [split, RepoId.text, List.length_append, List.length_cons]
      omega
    have rest : spec.drop (r.org.length + 1) = r.name := by simp [split, RepoId.text]
    have chars : spec.all (fun c => c == slash || isNameChar c) = true := by
      rw [List.all_eq_true]
      intro c member
      rw [split, RepoId.text, List.mem_append, List.mem_cons] at member
      rcases member with inOrg | rfl | inName
      · simp [r.legal c (List.mem_append_left _ inOrg)]
      · rfl
      · simp [r.legal c (List.mem_append_right _ inName)]
    rw [looksLikeRepoId, if_neg (by intro empty; simp [empty] at size), if_neg (by simp [absent]), found]
    simp only [rest]
    rw [if_neg namePlain, if_neg (by omega), chars]

variable {fs : FileSystem} {spec repo tag : Bytes}

theorem looksLikeRepoId_colon (accepted : looksLikeRepoId fs spec = true) : (0x3A : UInt8) ∉ spec := by
  obtain ⟨_, r, rfl⟩ := (looksLikeRepoId_iff fs spec).mp accepted
  intro member
  rw [RepoId.text, List.mem_append, List.mem_cons] at member
  rcases member with inOrg | same | inName
  · exact absurd (r.legal _ (List.mem_append_left _ inOrg)) (by decide)
  · cases same
  · exact absurd (r.legal _ (List.mem_append_right _ inName)) (by decide)

theorem local_tiers (env : Env) (absent : fs.exist spec = false) :
    resolveModelDir fs env spec =
      match ggufSpec fs spec with
      | some (repo, tag) =>
        let cached := findCachedGguf fs (ggufDir env repo) tag
        if cached ≠ [] then .ok (.path cached) else .ok (.downloadGguf repo (ggufDir env repo) tag)
      | none =>
        if looksLikeRepoId fs spec then
          let hubSnap := hfCacheSnapshotDir fs (hfHubCacheRoot env) spec
          if hubSnap ≠ [] ∧ isModelDir fs hubSnap then .ok (.path hubSnap)
          else if isModelDir fs (downloadDir env spec) then .ok (.path (downloadDir env spec))
          else .ok (.downloadRepo spec (downloadDir env spec))
        else .error "is neither a directory with config.json nor a HuggingFace repo id (expected 'org/name')" := by
  have noFile : fs.isRegularFile spec = false := by
    by_contra file
    exact absurd (fs.file_exists spec (by simpa using file)) (by simp [absent])
  have noDir : fs.isDirectory spec = false := by
    by_contra dir
    exact absurd (fs.directory_exists spec (by simpa using dir)) (by simp [absent])
  simp only [resolveModelDir, isModelDir, noFile, noDir, absent, Bool.and_false, Bool.false_and, Bool.false_eq_true, if_false]

/-- A repository is looked up and downloaded nowhere but in its directories. -/
theorem resolveModelDir_repo (env : Env) (accepted : looksLikeRepoId fs spec = true) :
    resolveModelDir fs env spec = .ok (.path (hfCacheSnapshotDir fs (hfHubCacheRoot env) spec)) ∨
      resolveModelDir fs env spec = .ok (.path (downloadDir env spec)) ∨
      resolveModelDir fs env spec = .ok (.downloadRepo spec (downloadDir env spec)) := by
  have absent := ((looksLikeRepoId_iff fs spec).mp accepted).1
  have plain : ggufSpec fs spec = none := by
    rw [ggufSpec, if_neg (by simp [absent]), List.idxOf?_eq_none_iff.mpr (looksLikeRepoId_colon accepted)]
  rw [local_tiers env absent, plain]
  simp only [accepted, if_true]
  split
  · exact .inl rfl
  split
  · exact .inr (.inl rfl)
  · exact .inr (.inr rfl)

theorem resolveModelDir_gguf (env : Env) (accepted : ggufSpec fs spec = some (repo, tag)) :
    resolveModelDir fs env spec =
      if findCachedGguf fs (ggufDir env repo) tag ≠ [] then .ok (.path (findCachedGguf fs (ggufDir env repo) tag))
      else .ok (.downloadGguf repo (ggufDir env repo) tag) := by
  have absent : fs.exist spec = false := by
    by_contra here
    rw [ggufSpec, if_pos (by simpa using here)] at accepted
    cases accepted
  rw [local_tiers env absent, accepted]

end ModelSource

end Mlxforge
