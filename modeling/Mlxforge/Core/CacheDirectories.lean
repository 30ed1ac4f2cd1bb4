import Mlxforge.Core.ModelSource
import Mlxforge.Lib.Fields

/-!
# Directories of the caches

The slash of a repository's name is replaced by two characters that a name may hold as well, so the place of the slash
cannot always be told from the directory.
-/

namespace Mlxforge.ModelSource

open FsPath (Place Plain locate slash)

/-! ### Texts cut in two ways -/

/-- The second of two cuts of a text at `c c` lies behind the first: right behind it, sharing a `c`, or across another
`c c`. -/
def Shifted (c : UInt8) (a b a' b' : Bytes) : Prop :=
  (a' = a ++ [c] ∧ b = c :: b') ∨ ∃ m, a' = a ++ c :: c :: m ∧ b = m ++ c :: c :: b'

/-- One text cut at `c c` and at `d d`. -/
def Mixed (c d : UInt8) (a b a' b' : Bytes) : Prop :=
  ∃ m, (a' = a ++ c :: c :: m ∧ b = m ++ d :: d :: b') ∨ (a = a' ++ d :: d :: m ∧ b' = m ++ c :: c :: b)

variable {c d : UInt8} {a b a' b' : Bytes}

theorem Shifted.cut (shifted : Shifted c a b a' b') : a ++ c :: c :: b = a' ++ c :: c :: b' := by
  rcases shifted with ⟨rfl, rfl⟩ | ⟨m, rfl, rfl⟩ <;> simp

theorem cut_eq_iff : a ++ c :: c :: b = a' ++ c :: c :: b' ↔
    (a = a' ∧ b = b') ∨ Shifted c a b a' b' ∨ Shifted c a' b' a b := by
  have behind : ∀ {a b a' b' m : Bytes}, a' = a ++ m → c :: c :: b = m ++ c :: c :: b' →
      (a = a' ∧ b = b') ∨ Shifted c a b a' b' := by
    intro a b a' b' m front rest
    match m with
    | [] => exact .inl (by simp_all)
    | [x] =>
      obtain ⟨rfl, rfl⟩ : c = x ∧ b = c :: b' := by simpa using rest
      exact .inr (.inl ⟨front, rfl⟩)
    | x :: y :: m =>
      obtain ⟨rfl, rfl, rfl⟩ : c = x ∧ c = y ∧ b = m ++ c :: c :: b' := by simpa using rest
      exact .inr (.inr ⟨m, front, rfl⟩)
  constructor
  · intro same
    rcases List.append_eq_append_iff.mp same with ⟨m, front, rest⟩ | ⟨m, front, rest⟩
    · rcases behind front rest with same | shifted
      · exact .inl same
      · exact .inr (.inl shifted)
    · rcases behind front rest with ⟨same, rest⟩ | shifted
      · exact .inl ⟨same.symm, rest.symm⟩
      · exact .inr (.inr shifted)
  · rintro (⟨rfl, rfl⟩ | shifted | shifted)
    · rfl
    · exact shifted.cut
    · exact shifted.cut.symm

theorem mixed_cut_iff (differ : c ≠ d) : a ++ c :: c :: b = a' ++ d :: d :: b' ↔ Mixed c d a b a' b' := by
  have behind : ∀ {c d : UInt8} {b b' m : Bytes}, c ≠ d → c :: c :: b = m ++ d :: d :: b' →
      ∃ m', m = c :: c :: m' ∧ b = m' ++ d :: d :: b' := by
    intro c d b b' m differ rest
    match m with
    | [] => exact absurd (List.cons.inj rest).1 differ
    | [x] => exact absurd (List.cons.inj (List.cons.inj rest).2).1 differ
    | x :: y :: m =>
      obtain ⟨rfl, rfl, rfl⟩ : c = x ∧ c = y ∧ b = m ++ d :: d :: b' := by simpa using rest
      exact ⟨m, rfl, rfl⟩
  constructor
  · intro same
    rcases List.append_eq_append_iff.mp same with ⟨m, front, rest⟩ | ⟨m, front, rest⟩
    · obtain ⟨m', rfl, tail⟩ := behind differ rest
      exact ⟨m', .inl ⟨front, tail⟩⟩
    · obtain ⟨m', rfl, tail⟩ := behind differ.symm rest
      exact ⟨m', .inr ⟨front, tail⟩⟩
  · rintro ⟨m, ⟨rfl, rfl⟩ | ⟨rfl, rfl⟩⟩ <;> simp

/-! ### Names of directories -/

abbrev underscore : UInt8 := 0x5F
abbrev hyphen : UInt8 := 0x2D

def models : Bytes := .ofAscii "models--"

/-- Two repositories are one text once their slashes are `c c`. -/
def Clash (c : UInt8) (r r' : RepoId) : Prop := Shifted c r.org r.name r'.org r'.name ∨ Shifted c r'.org r'.name r.org r.name

/-- The hub's name for `r` reads as the download's name for `r'`. -/
def HubClash (r r' : RepoId) : Prop := Mixed hyphen underscore (models ++ r.org) r.name r'.org r'.name

variable {r r' : RepoId}

theorem flatCacheName_text (r : RepoId) : flatCacheName r.text = r.org ++ underscore :: underscore :: r.name :=
  r.flatten_text _

theorem flatCacheName_gguf (r : RepoId) : flatCacheName r.text ++ .ofAscii "-gguf" = flatCacheName r.gguf.text := by
  rw [flatCacheName_text, flatCacheName_text, RepoId.gguf]
  simp

theorem hfRepoDirname_text (r : RepoId) : hfRepoDirname r.text = (models ++ r.org) ++ hyphen :: hyphen :: r.name := by
  rw [hfRepoDirname, r.flatten_text, List.append_assoc]
  rfl

theorem flatCacheName_eq_iff : flatCacheName r.text = flatCacheName r'.text ↔ r = r' ∨ Clash underscore r r' := by
  rw [flatCacheName_text, flatCacheName_text, cut_eq_iff, Clash]
  constructor
  · rintro (⟨org, name⟩ | clash)
    · exact .inl (RepoId.ext_parts org name)
    · exact .inr clash
  · rintro (rfl | clash)
    · exact .inl ⟨rfl, rfl⟩
    · exact .inr clash

theorem hfRepoDirname_eq_iff : hfRepoDirname r.text = hfRepoDirname r'.text ↔ r = r' ∨ Clash hyphen r r' := by
  have tail : ∀ r : RepoId, (models ++ r.org) ++ hyphen :: hyphen :: r.name = models ++ (r.org ++ hyphen :: hyphen :: r.name) :=
    fun r => List.append_assoc _ _ _
  rw [hfRepoDirname_text, hfRepoDirname_text, tail, tail, List.append_cancel_left_eq, cut_eq_iff, Clash]
  constructor
  · rintro (⟨org, name⟩ | clash)
    · exact .inl (RepoId.ext_parts org name)
    · exact .inr clash
  · rintro (rfl | clash)
    · exact .inl ⟨rfl, rfl⟩
    · exact .inr clash

theorem hub_eq_flat_iff : hfRepoDirname r.text = flatCacheName r'.text ↔ HubClash r r' := by
  rw [hfRepoDirname_text, flatCacheName_text]
  exact mixed_cut_iff (by decide)

theorem flatCacheName_plain (r : RepoId) : Plain (flatCacheName r.text) := by
  have long : 2 < (flatCacheName r.text).length := by
    have some := List.length_pos_iff.mpr r.org_some
    rw [flatCacheName_text, List.length_append, List.length_cons, List.length_cons]
    omega
  refine ⟨?_, ?_, ?_, ?_⟩
  · have other : slash ≠ underscore := by decide
    rw [flatCacheName_text]
    simp [r.slash_notMem, other]
  all_goals
    intro same
    rw [same] at long
    exact absurd long (by decide)

theorem hfRepoDirname_plain (r : RepoId) : Plain (hfRepoDirname r.text) := by
  have long : 2 < (hfRepoDirname r.text).length := by
    rw [hfRepoDirname_text, List.append_assoc, List.length_append]
    exact Nat.lt_add_right _ (by decide)
  refine ⟨?_, ?_, ?_, ?_⟩
  · have other : slash ≠ hyphen := by decide
    have unslashed : slash ∉ models := by decide
    rw [hfRepoDirname_text]
    simp [r.slash_notMem, unslashed, other]
  all_goals
    intro same
    rw [same] at long
    exact absurd long (by decide)

/-! ### Directories -/

/-- Every directory that is computed for a repository. The hub cache has none while its root is unknown. -/
def directories (env : Env) (repo : Bytes) : List Bytes :=
  (if hfHubCacheRoot env = [] then [] else [hubDir env repo]) ++ [downloadDir env repo, ggufDir env repo]

/-- The two repositories have a directory in common. -/
def Confusable (env : Env) (cwd : Place) (r r' : RepoId) : Prop :=
  (∃ x ∈ [r, r.gguf], ∃ x' ∈ [r', r'.gguf], x = x' ∨ Clash underscore x x') ∨
    hfHubCacheRoot env ≠ [] ∧ (Clash hyphen r r' ∨
      locate cwd (hfHubCacheRoot env) = locate cwd (mlxforgeCacheRoot env) ∧
        ((∃ x' ∈ [r', r'.gguf], HubClash r x') ∨ ∃ x ∈ [r, r.gguf], HubClash r' x))

theorem locate_downloadDir (env : Env) (cwd : Place) (r : RepoId) :
    locate cwd (downloadDir env r.text) = locate cwd (mlxforgeCacheRoot env) ++ [flatCacheName r.text] :=
  (flatCacheName_plain r).locate_join

theorem ggufDir_text (env : Env) (r : RepoId) : ggufDir env r.text = downloadDir env r.gguf.text := by
  rw [ggufDir, flatCacheName_gguf, downloadDir]

theorem locate_hubDir (env : Env) (cwd : Place) (r : RepoId) :
    locate cwd (hubDir env r.text) = locate cwd (hfHubCacheRoot env) ++ [hfRepoDirname r.text] :=
  (hfRepoDirname_plain r).locate_join

theorem mem_directories {env : Env} {p : Bytes} : p ∈ directories env r.text ↔
    (hfHubCacheRoot env ≠ [] ∧ p = hubDir env r.text) ∨ ∃ x ∈ [r, r.gguf], p = downloadDir env x.text := by
  rw [directories, ggufDir_text]
  split <;> simp_all

theorem download_meet_iff {env : Env} {cwd : Place} :
    locate cwd (downloadDir env r.text) = locate cwd (downloadDir env r'.text) ↔ r = r' ∨ Clash underscore r r' := by
  rw [locate_downloadDir, locate_downloadDir, List.append_cancel_left_eq, List.singleton_inj, flatCacheName_eq_iff]

theorem hub_meet_iff {env : Env} {cwd : Place} :
    locate cwd (hubDir env r.text) = locate cwd (hubDir env r'.text) ↔ r = r' ∨ Clash hyphen r r' := by
  rw [locate_hubDir, locate_hubDir, List.append_cancel_left_eq, List.singleton_inj, hfRepoDirname_eq_iff]

theorem hub_download_meet_iff {env : Env} {cwd : Place} :
    locate cwd (hubDir env r.text) = locate cwd (downloadDir env r'.text) ↔
      locate cwd (hfHubCacheRoot env) = locate cwd (mlxforgeCacheRoot env) ∧ HubClash r r' := by
  rw [locate_hubDir, locate_downloadDir, ← hub_eq_flat_iff]
  constructor
  · intro same
    obtain ⟨roots, names⟩ := List.append_inj' same rfl
    exact ⟨roots, List.singleton_inj.mp names⟩
  · rintro ⟨roots, names⟩
    rw [roots, names]

/-- The plain form of a repository and its GGUF form do not share a directory. -/
theorem gguf_apart (env : Env) (cwd : Place) (r : RepoId) :
    locate cwd (downloadDir env r.text) ≠ locate cwd (ggufDir env r.text) := by
  have longer : (Bytes.ofAscii "-gguf").length = 5 := rfl
  rw [ggufDir_text, locate_downloadDir, locate_downloadDir, ← flatCacheName_gguf]
  intro same
  have sizes := congrArg List.length (List.singleton_inj.mp (List.append_cancel_left same))
  rw [List.length_append] at sizes
  omega

theorem apart_iff (env : Env) (cwd : Place) (other : r ≠ r') :
    (∀ p ∈ directories env r.text, ∀ p' ∈ directories env r'.text, locate cwd p ≠ locate cwd p') ↔
      ¬Confusable env cwd r r' := by
  constructor
  · rintro apart (⟨x, member, x', member', same⟩ | ⟨known, clash | ⟨roots, ⟨x', member', clash⟩ | ⟨x, member, clash⟩⟩⟩)
    · exact apart _ (mem_directories.mpr (.inr ⟨x, member, rfl⟩)) _ (mem_directories.mpr (.inr ⟨x', member', rfl⟩))
        (download_meet_iff.mpr same)
    · exact apart _ (mem_directories.mpr (.inl ⟨known, rfl⟩)) _ (mem_directories.mpr (.inl ⟨known, rfl⟩))
        (hub_meet_iff.mpr (.inr clash))
    · exact apart _ (mem_directories.mpr (.inl ⟨known, rfl⟩)) _ (mem_directories.mpr (.inr ⟨x', member', rfl⟩))
        (hub_download_meet_iff.mpr ⟨roots, clash⟩)
    · exact apart _ (mem_directories.mpr (.inr ⟨x, member, rfl⟩)) _ (mem_directories.mpr (.inl ⟨known, rfl⟩))
        (hub_download_meet_iff.mpr ⟨roots, clash⟩).symm
  · intro clear p member p' member' same
    apply clear
    rcases mem_directories.mp member with ⟨known, rfl⟩ | ⟨x, listed, rfl⟩ <;>
      rcases mem_directories.mp member' with ⟨known', rfl⟩ | ⟨x', listed', rfl⟩
    · exact .inr ⟨known, .inl ((hub_meet_iff.mp same).resolve_left other)⟩
    · obtain ⟨roots, clash⟩ := hub_download_meet_iff.mp same
      exact .inr ⟨known, .inr ⟨roots, .inl ⟨x', listed', clash⟩⟩⟩
    · obtain ⟨roots, clash⟩ := hub_download_meet_iff.mp same.symm
      exact .inr ⟨known', .inr ⟨roots, .inr ⟨x, listed, clash⟩⟩⟩
    · exact .inl ⟨x, listed, x', listed', download_meet_iff.mp same⟩

theorem RepoId.text_inj (same : r.text = r'.text) : r = r' := by
  obtain ⟨org, name⟩ := field_append_inj r.slash_notMem.1 r'.slash_notMem.1 same
  exact ext_parts org name

/-- A file system in which nothing exists. -/
def bare : FileSystem where
  exist _ := false
  isRegularFile _ := false
  isDirectory _ := false
  list _ := []
  firstLine _ := []
  file_exists _ := id
  directory_exists _ := id

def early : RepoId := ⟨.ofAscii "a", .ofAscii "b__c", by decide, by decide, by decide +kernel⟩
def late : RepoId := ⟨.ofAscii "a__b", .ofAscii "c", by decide, by decide, by decide +kernel⟩

end Mlxforge.ModelSource
