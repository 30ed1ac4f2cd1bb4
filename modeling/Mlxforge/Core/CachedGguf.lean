import Mlxforge.Core.HfDownload
import Mlxforge.Json.NumberText

/-!
# GGUF files in the cache

The cache answers with the first file whose name holds the tag, a fresh selection only where one file of the repository
does. What earlier downloads left in the directory decides where the two differ.
-/

namespace Mlxforge.HfDownload

open FsPath (Place Plain join lastPart locate slash)
open ModelSource (findCachedGguf hasGgufSuffix nameContains toLower)

/-- The regular files there are. -/
abbrev Disk := List Place

def FileOp.effect (cwd : Place) (disk : Disk) : FileOp → Disk
  | .openForWriting p => locate cwd p :: disk
  | .rename source target => locate cwd target :: disk.filter fun q => q ≠ locate cwd source
  | .remove p => disk.filter fun q => ¬locate cwd p <+: q

/-- The files after a complete download of the variant `tag`. -/
def afterGguf (cwd : Place) (info : Json) (dir : Bytes) (pid : Nat) (disk : Disk) (tag : Bytes) : Disk :=
  (hfDownloadGguf .complete (fun p => decide (locate cwd p ∈ disk)) [] (some info) dir tag pid).1.foldl
    (FileOp.effect cwd) disk

/-- The files after the downloads of a history. -/
def afterHistory (cwd : Place) (info : Json) (dir : Bytes) (pid : Nat) (disk : Disk) (history : List Bytes) : Disk :=
  history.foldl (afterGguf cwd info dir pid) disk

/-- The file system lists the regular files of a directory, in whatever order. -/
structure Shows (fs : FileSystem) (cwd : Place) (dir : Bytes) (disk : Disk) : Prop where
  files : ∀ name, (name, true) ∈ fs.list dir ↔ locate cwd dir ++ [name] ∈ disk
  directory : (∃ name, locate cwd dir ++ [name] ∈ disk) → fs.isDirectory dir = true

/-! ### Names of GGUF files -/

theorem toLower_slash_iff (c : UInt8) : (if 0x41 ≤ c && c ≤ 0x5A then c + 0x20 else c) = slash ↔ c = slash := by
  obtain ⟨⟨⟨c, small⟩⟩⟩ := c
  revert c
  decide +kernel

theorem slash_mem_toLower {s : Bytes} : slash ∈ toLower s ↔ slash ∈ s := by
  rw [toLower, List.mem_map]
  constructor
  · intro ⟨c, member, same⟩
    rwa [← (toLower_slash_iff c).mp same]
  · intro member
    exact ⟨slash, member, by decide⟩

variable {f tag name : Bytes} {cwd : Place} {dir : Bytes} {disk : Disk} {info : Json} {pid : Nat}

theorem hasGgufSuffix_eq (f : Bytes) : hasGgufSuffix f = endsWithCi f (.ofAscii ".gguf") := by
  have size : (Bytes.ofAscii ".gguf").length = 5 := rfl
  have lower : toLower (.ofAscii ".gguf") = .ofAscii ".gguf" := by decide
  rw [hasGgufSuffix, endsWithCi, size, lower]

theorem hasGgufSuffix_iff : hasGgufSuffix f = true ↔ ∃ front rest, f = front ++ rest ∧ toLower rest = .ofAscii ".gguf" := by
  rw [hasGgufSuffix, Bool.and_eq_true, decide_eq_true_eq, beq_iff_eq]
  constructor
  · intro ⟨_, suffix⟩
    exact ⟨f.take (f.length - 5), f.drop (f.length - 5), (List.take_append_drop _ f).symm, suffix⟩
  · rintro ⟨front, rest, rfl, suffix⟩
    have size : rest.length = 5 := by
      have mapped : (toLower rest).length = rest.length := List.length_map _
      rw [← mapped, suffix]
      rfl
    have behind : (front ++ rest).drop ((front ++ rest).length - 5) = rest := by
      rw [List.length_append, size, Nat.add_sub_cancel, List.drop_left]
    exact ⟨by rw [List.length_append]; omega, by rw [behind, suffix]⟩

/-- The suffix stands in the last part of a path. -/
theorem lastPart_gguf (suffix : hasGgufSuffix f = true) : hasGgufSuffix (lastPart f) = true := by
  obtain ⟨front, rest, rfl, lower⟩ := hasGgufSuffix_iff.mp suffix
  have plain : slash ∉ rest := by
    rw [← slash_mem_toLower, lower]
    decide
  rw [FsPath.lastPart_append front plain]
  exact hasGgufSuffix_iff.mpr ⟨_, rest, rfl, lower⟩

theorem plain_gguf (suffix : hasGgufSuffix name = true) (single : slash ∉ name) : Plain name := by
  have long : 5 ≤ name.length := by
    rw [hasGgufSuffix, Bool.and_eq_true, decide_eq_true_eq] at suffix
    exact suffix.1
  refine ⟨single, ?_, ?_, ?_⟩
  all_goals
    rintro rfl
    exact absurd long (by decide)

theorem plain_lastPart (suffix : hasGgufSuffix f = true) : Plain (lastPart f) :=
  plain_gguf (lastPart_gguf suffix) (FsPath.slash_notMem_lastPart f)

theorem nameContains_lastPart (held : nameContains (lastPart f) tag = true) : nameContains f tag = true := by
  rw [nameContains, decide_eq_true_eq] at held ⊢
  have within : lastPart f <:+: f := (FsPath.lastPart_suffix f).isInfix
  exact held.trans (within.map _)

theorem digit_not_f {c : UInt8} (digit : isDigit c = true) : (if 0x41 ≤ c && c ≤ 0x5A then c + 0x20 else c) ≠ 0x66 := by
  obtain ⟨⟨⟨c, small⟩⟩⟩ := c
  revert c
  decide +kernel

/-- A temporary file is no GGUF file to the cache. -/
theorem incomplete_not_gguf (name : Bytes) (pid : Nat) : hasGgufSuffix (name ++ incomplete pid) = false := by
  by_contra gguf
  obtain ⟨front, rest, split, lower⟩ := hasGgufSuffix_iff.mp (by simpa using gguf)
  have digits : Json.digitBytes pid ≠ [] := by
    rw [Json.digitBytes_eq]
    exact mt List.map_eq_nil_iff.mp Nat.toDigits_ne_nil
  have suffix : rest ≠ [] := by
    rintro rfl
    cases lower
  have last : (Json.digitBytes pid).getLast digits = rest.getLast suffix := by
    have ends := congrArg List.getLast? split
    rw [incomplete, ← List.append_assoc, ← Json.digitBytes, List.getLast?_append_of_ne_nil _ digits,
      List.getLast?_append_of_ne_nil _ suffix, List.getLast?_eq_some_getLast digits,
      List.getLast?_eq_some_getLast suffix] at ends
    exact Option.some.inj ends
  have digit := Json.digitBytes_digits pid _ (List.getLast_mem digits)
  have letter : (toLower rest).getLast? = some 0x66 := by rw [lower]; rfl
  rw [toLower, List.getLast?_map, List.getLast?_eq_some_getLast suffix, ← last, Option.map_some, Option.some.injEq] at letter
  exact digit_not_f digit letter

/-! ### What downloads leave -/

/-- The place of a downloaded file. -/
abbrev stored (cwd : Place) (dir f : Bytes) : Place := locate cwd (join dir f)

theorem stored_lastPart (suffix : hasGgufSuffix f = true) (cwd : Place) (dir : Bytes) :
    ∃ parent, stored cwd dir f = parent ++ [lastPart f] :=
  FsPath.locate_join_lastPart (plain_lastPart suffix) cwd dir

theorem stored_incomplete (cwd : Place) (dir f : Bytes) (pid : Nat) :
    ∃ parent, stored cwd dir (f ++ incomplete pid) = parent ++ [lastPart f ++ incomplete pid] := by
  have unslashed : slash ∉ incomplete pid := by
    rw [incomplete, List.mem_append]
    rintro (text | digits)
    · exact absurd text (by decide)
    · exact absurd (Json.digitBytes_digits pid _ digits) (by decide)
  have last : lastPart (f ++ incomplete pid) = lastPart f ++ incomplete pid := FsPath.lastPart_append f unslashed
  have plain : Plain (lastPart (f ++ incomplete pid)) := by
    have long : 5 < (lastPart f ++ incomplete pid).length := by
      have text : (Bytes.ofAscii ".incomplete-").length = 12 := rfl
      rw [List.length_append, incomplete, List.length_append]
      omega
    refine ⟨FsPath.slash_notMem_lastPart _, ?_, ?_, ?_⟩
    all_goals
      intro same
      rw [← last, same] at long
      exact absurd long (by decide)
  rw [← last]
  exact FsPath.locate_join_lastPart plain cwd dir

theorem mem_afterGguf {q : Place} (only : ggufMatches (parseRepoSiblings info) tag = [f]) :
    q ∈ afterGguf cwd info dir pid disk tag ↔
      q = stored cwd dir f ∨ q ∈ disk ∧ (stored cwd dir f ∈ disk ∨ q ≠ stored cwd dir (f ++ incomplete pid)) := by
  have chosen := selectGgufFile_ok_iff.mpr only
  rw [afterGguf, hfDownloadGguf]
  simp only [chosen, Transfer.complete]
  by_cases present : stored cwd dir f ∈ disk
  · simp only [present, decide_true, if_true, List.foldl_nil, true_or, and_true]
    constructor
    · exact .inr
    · rintro (rfl | member)
      · exact present
      · exact member
  · simp only [present, decide_false, Bool.false_eq_true, if_false, downloadFile, List.cons_append, List.nil_append,
      List.foldl_cons, List.foldl_nil, FileOp.effect, List.mem_cons, List.mem_filter, decide_eq_true_eq, false_or]
    constructor
    · rintro (final | ⟨same | member, other⟩)
      · exact .inl final
      · exact absurd same other
      · exact .inr ⟨member, other⟩
    · rintro (final | ⟨member, other⟩)
      · exact .inl final
      · exact .inr ⟨.inr member, other⟩

theorem afterGguf_unmatched (none : ∀ f, ggufMatches (parseRepoSiblings info) tag ≠ [f]) :
    afterGguf cwd info dir pid disk tag = disk := by
  rw [afterGguf, hfDownloadGguf]
  cases chosen : selectGgufFile (parseRepoSiblings info) tag with
  | error e => simp only [List.foldl_nil]
  | ok f => exact absurd (selectGgufFile_ok_iff.mp chosen) (none f)

theorem gguf_of_only (only : ggufMatches (parseRepoSiblings info) tag = [f]) :
    hasGgufSuffix f = true ∧ nameContains f tag = true := by
  have member : f ∈ ggufMatches (parseRepoSiblings info) tag := by rw [only]; exact List.mem_singleton_self f
  obtain ⟨_, suffix, held⟩ := mem_ggufMatches.mp member
  exact ⟨by rw [hasGgufSuffix_eq]; exact suffix, held⟩

/-- The file `f` was the only match of an earlier tag. -/
def Downloaded (info : Json) (history : List Bytes) (f : Bytes) : Prop :=
  ∃ earlier ∈ history, ggufMatches (parseRepoSiblings info) earlier = [f]

/-- Of the files that end in a name, the downloads leave those there were and those they chose. -/
theorem mem_afterHistory {history : List Bytes} {parent : Place} (suffix : hasGgufSuffix name = true) :
    parent ++ [name] ∈ afterHistory cwd info dir pid disk history ↔
      parent ++ [name] ∈ disk ∨ ∃ f, Downloaded info history f ∧ stored cwd dir f = parent ++ [name] := by
  induction history using List.reverseRecOn with
  | nil => simp [afterHistory, Downloaded]
  | append_singleton history tag ih =>
    rw [afterHistory, List.foldl_append, List.foldl_cons, List.foldl_nil, ← afterHistory]
    have more : ∀ f, Downloaded info (history ++ [tag]) f ↔
        Downloaded info history f ∨ ggufMatches (parseRepoSiblings info) tag = [f] := by
      intro f
      simp only [Downloaded, List.mem_append, List.mem_singleton]
      constructor
      · rintro ⟨earlier, listed | rfl, only⟩
        · exact .inl ⟨earlier, listed, only⟩
        · exact .inr only
      · rintro (⟨earlier, listed, only⟩ | only)
        · exact ⟨earlier, .inl listed, only⟩
        · exact ⟨tag, .inr rfl, only⟩
    by_cases single : ∃ f, ggufMatches (parseRepoSiblings info) tag = [f]
    · obtain ⟨f, only⟩ := single
      have other : parent ++ [name] ≠ stored cwd dir (f ++ incomplete pid) := by
        obtain ⟨parent', place⟩ := stored_incomplete cwd dir f pid
        rw [place]
        intro same
        have names := List.singleton_inj.mp (List.append_inj' same rfl).2
        rw [names, incomplete_not_gguf] at suffix
        cases suffix
      rw [mem_afterGguf only, ih]
      simp only [other, ne_eq, not_false_eq_true, or_true, and_true, more, only, List.cons.injEq, and_true]
      constructor
      · rintro (same | before | ⟨g, downloaded, place⟩)
        · exact .inr ⟨f, .inr rfl, same.symm⟩
        · exact .inl before
        · exact .inr ⟨g, .inl downloaded, place⟩
      · rintro (before | ⟨g, downloaded | rfl, place⟩)
        · exact .inr (.inl before)
        · exact .inr (.inr ⟨g, downloaded, place⟩)
        · exact .inl place.symm
    · have none : ∀ f, ggufMatches (parseRepoSiblings info) tag ≠ [f] := not_exists.mp single
      rw [afterGguf_unmatched none, ih]
      simp only [more, none, or_false]

/-! ### What the cache answers -/

theorem findCachedGguf_some {fs : FileSystem} (answered : findCachedGguf fs dir tag ≠ []) :
    ∃ name, (name, true) ∈ fs.list dir ∧ hasGgufSuffix name = true ∧ nameContains name tag = true ∧
      findCachedGguf fs dir tag = join dir name := by
  rw [findCachedGguf] at answered ⊢
  split at answered
  · exact absurd rfl answered
  next opened =>
  rw [if_neg opened]
  cases found : (fs.list dir).find? fun e => e.2 && (hasGgufSuffix e.1 && nameContains e.1 tag) with
  | none =>
    rw [found] at answered
    exact absurd rfl answered
  | some e =>
    obtain ⟨name, regular⟩ := e
    have holds := List.find?_some found
    simp only [Bool.and_eq_true] at holds
    obtain ⟨rfl, suffix, held⟩ := holds
    exact ⟨name, List.mem_of_find?_eq_some found, suffix, held, rfl⟩

/-- A cached file is one of the history's, and lies where the history stored it. -/
theorem cached_downloaded {fs : FileSystem} {history : List Bytes} (fresh : ∀ name, locate cwd dir ++ [name] ∉ disk)
    (shows_ : Shows fs cwd dir (afterHistory cwd info dir pid disk history)) (answered : findCachedGguf fs dir tag ≠ []) :
    ∃ f, Downloaded info history f ∧ stored cwd dir f = locate cwd dir ++ [lastPart f] ∧
      nameContains (lastPart f) tag = true ∧ locate cwd (findCachedGguf fs dir tag) = stored cwd dir f := by
  obtain ⟨name, listed, suffix, held, answer⟩ := findCachedGguf_some answered
  have kept := (mem_afterHistory suffix).mp ((shows_.files name).mp listed)
  obtain ⟨f, downloaded, place⟩ := kept.resolve_left (fresh name)
  obtain ⟨earlier, member, only⟩ := downloaded
  obtain ⟨parent, ends⟩ := stored_lastPart (gguf_of_only only).1 cwd dir
  obtain ⟨_, same⟩ := List.append_inj' (ends.symm.trans place) rfl
  obtain rfl : lastPart f = name := List.singleton_inj.mp same
  refine ⟨f, ⟨earlier, member, only⟩, place, held, ?_⟩
  rw [answer, (plain_lastPart (gguf_of_only only).1).locate_join, place]

/-- A directory in which the file is listed first. -/
theorem cached_first {name : Bytes} {entries : List (Bytes × Bool)} {fs : FileSystem} (opened : fs.isDirectory dir = true)
    (listing : fs.list dir = (name, true) :: entries) (suffix : hasGgufSuffix name = true)
    (held : nameContains name tag = true) : findCachedGguf fs dir tag = join dir name := by
  rw [findCachedGguf, opened, listing, List.find?_cons_of_pos (by simp [suffix, held])]
  rfl

/-- The names of the files directly in a place. -/
def namesIn (place : Place) (disk : Disk) : List Bytes :=
  disk.filterMap fun q => if q.dropLast = place then q.getLast? else none

theorem mem_namesIn {place : Place} : name ∈ namesIn place disk ↔ place ++ [name] ∈ disk := by
  rw [namesIn, List.mem_filterMap]
  constructor
  · intro ⟨q, member, last⟩
    split at last
    next front =>
      obtain ⟨front', rfl⟩ := List.getLast?_eq_some_iff.mp last
      rw [List.dropLast_concat] at front
      rwa [← front]
    · cases last
  · intro member
    refine ⟨place ++ [name], member, ?_⟩
    rw [List.dropLast_concat, if_pos rfl, List.getLast?_concat]

theorem ggufDir_ne_repo (env : Env) (r : ModelSource.RepoId) : ModelSource.ggufDir env r.text ≠ r.text := by
  intro same
  have flat := r.flatten_text (.ofAscii "__")
  have other : slash ∉ ModelSource.flatCacheName r.text ++ .ofAscii "-gguf" := by
    have unslashed : slash ∉ Bytes.ofAscii "__" ∧ slash ∉ Bytes.ofAscii "-gguf" := by decide
    rw [ModelSource.flatCacheName, flat]
    simp [r.slash_notMem, unslashed]
  have ends : ∃ front, ModelSource.ggufDir env r.text = front ++ (ModelSource.flatCacheName r.text ++ .ofAscii "-gguf") := by
    rw [ModelSource.ggufDir, join]
    split
    · exact ⟨[], rfl⟩
    split
    · exact ⟨_, rfl⟩
    · exact ⟨ModelSource.mlxforgeCacheRoot env ++ [slash], by simp⟩
  obtain ⟨front, split⟩ := ends
  have sizes := congrArg (fun p => (lastPart p).length) (split.symm.trans same)
  have name : lastPart r.text = r.name := by
    have cut : r.text = (r.org ++ [slash]) ++ r.name := by simp [ModelSource.RepoId.text]
    have none : lastPart (r.org ++ [slash]) = [] := List.rtakeWhile_concat_neg _ _ _ (by simp)
    rw [cut, FsPath.lastPart_append _ r.slash_notMem.2, none, List.nil_append]
  rw [FsPath.lastPart_append _ other, name, ModelSource.flatCacheName, flat] at sizes
  have gap : (Bytes.ofAscii "__").length = 2 := rfl
  simp only [List.length_append, gap] at sizes
  omega

/-- The tag that a spec's variant stands for. -/
def variantTag (variant : Bytes) : Bytes := if variant = [] then .ofAscii "Q4_0" else variant

theorem ggufSpec_text {fs : FileSystem} {r : ModelSource.RepoId} {variant : Bytes}
    (absent : fs.exist (r.text ++ 0x3A :: variant) = false) (repo : fs.exist r.text = false) :
    ModelSource.ggufSpec fs (r.text ++ 0x3A :: variant) = some (r.text, variantTag variant) := by
  have accepted := (ModelSource.looksLikeRepoId_iff fs r.text).mpr ⟨repo, r, rfl⟩
  have found := ModelSource.split_idxOf? variant (ModelSource.looksLikeRepoId_colon accepted)
  rw [ModelSource.ggufSpec, if_neg (by simp [absent]), found]
  simp only [List.take_left, accepted, if_true]
  rw [List.drop_append, List.drop_eq_nil_of_le (by omega), List.nil_append, Nat.add_sub_cancel_left, List.drop_one,
    List.tail_cons]
  rfl

/-- In some order of the directory the cache answers with a downloaded file that the tag names. -/
theorem exists_answer (env : Env) (cwd : Place) (r : ModelSource.RepoId) (pid : Nat) (disk : Disk)
    {history : List Bytes} (variant : Bytes) (apart : r.text ++ 0x3A :: variant ≠ ModelSource.ggufDir env r.text) (downloaded : Downloaded info history f)
    (place : stored cwd (ModelSource.ggufDir env r.text) f = locate cwd (ModelSource.ggufDir env r.text) ++ [lastPart f])
    (held : nameContains (lastPart f) (variantTag variant) = true) :
    ∃ fs, fs.exist (r.text ++ 0x3A :: variant) = false ∧ fs.exist r.text = false ∧
      Shows fs cwd (ModelSource.ggufDir env r.text)
        (afterHistory cwd info (ModelSource.ggufDir env r.text) pid disk history) ∧
      ModelSource.resolveModelDir fs env (r.text ++ 0x3A :: variant) =
        .ok (.path (join (ModelSource.ggufDir env r.text) (lastPart f))) := by
  obtain ⟨earlier, member, only⟩ := downloaded
  have suffix := (gguf_of_only only).1
  have plain := plain_lastPart suffix
  let dir := ModelSource.ggufDir env r.text
  let kept := afterHistory cwd info dir pid disk history
  let fs : FileSystem := {
    exist := fun p => p == dir
    isRegularFile := fun _ => false
    isDirectory := fun p => p == dir
    list := fun _ => (lastPart f, true) :: (namesIn (locate cwd dir) kept).map fun name => (name, true)
    firstLine := fun _ => []
    file_exists := fun _ never => by cases never
    directory_exists := fun _ => id }
  have here : locate cwd dir ++ [lastPart f] ∈ kept :=
    (mem_afterHistory (lastPart_gguf suffix)).mpr (.inr ⟨f, ⟨earlier, member, only⟩, place⟩)
  have absent : fs.exist (r.text ++ 0x3A :: variant) = false := beq_eq_false_iff_ne.mpr apart
  have noRepo : fs.exist r.text = false := beq_eq_false_iff_ne.mpr (ggufDir_ne_repo env r).symm
  refine ⟨fs, absent, noRepo, ⟨fun name => ?_, fun _ => beq_self_eq_true dir⟩, ?_⟩
  · simp only [fs, List.mem_cons, List.mem_map, Prod.mk.injEq, and_true, exists_eq_right, mem_namesIn]
    constructor
    · rintro (rfl | listed)
      · exact here
      · exact listed
    · exact .inr
  · have answer : ModelSource.findCachedGguf fs dir (variantTag variant) = join dir (lastPart f) :=
      cached_first (beq_self_eq_true dir) rfl (lastPart_gguf suffix) held
    have some : join dir (lastPart f) ≠ [] := by
      rw [join, if_neg (by simp [plain.relative])]
      split <;> simp [plain.2.1]
    rw [ModelSource.resolveModelDir_gguf env (ggufSpec_text absent noRepo), answer, if_pos some]

/-- The cache's answer is the repository's choice, for every order of the directory, exactly if each downloaded file of
the directory that the tag names is the only file of the repository that it names. -/
theorem cached_gguf_agrees_iff (env : Env) (cwd : Place) (r : ModelSource.RepoId) (info : Json) (pid : Nat)
    (disk : Disk) (history : List Bytes) (variant : Bytes)
    (fresh : ∀ name, locate cwd (ModelSource.ggufDir env r.text) ++ [name] ∉ disk)
    (apart : r.text ++ 0x3A :: variant ≠ ModelSource.ggufDir env r.text) :
    (∀ fs, fs.exist (r.text ++ 0x3A :: variant) = false → fs.exist r.text = false →
        Shows fs cwd (ModelSource.ggufDir env r.text)
          (afterHistory cwd info (ModelSource.ggufDir env r.text) pid disk history) →
        ∀ p, ModelSource.resolveModelDir fs env (r.text ++ 0x3A :: variant) = .ok (.path p) →
          ∃ f, selectGgufFile (parseRepoSiblings info) (variantTag variant) = .ok f ∧
            locate cwd p = stored cwd (ModelSource.ggufDir env r.text) f) ↔
      ∀ f, Downloaded info history f →
        stored cwd (ModelSource.ggufDir env r.text) f = locate cwd (ModelSource.ggufDir env r.text) ++ [lastPart f] →
        nameContains (lastPart f) (variantTag variant) = true →
        ggufMatches (parseRepoSiblings info) (variantTag variant) = [f] := by
  constructor
  · intro agrees f downloaded place held
    obtain ⟨fs, absent, noRepo, shown, answered⟩ := exists_answer env cwd r pid disk variant apart downloaded place held
    obtain ⟨g, chosen, _⟩ := agrees fs absent noRepo shown _ answered
    have single := selectGgufFile_ok_iff.mp chosen
    have matched : f ∈ ggufMatches (parseRepoSiblings info) (variantTag variant) := by
      obtain ⟨earlier, _, only⟩ := downloaded
      have offered : f ∈ ggufMatches (parseRepoSiblings info) earlier := by rw [only]; exact List.mem_singleton_self f
      obtain ⟨listed, ends, _⟩ := mem_ggufMatches.mp offered
      exact mem_ggufMatches.mpr ⟨listed, ends, nameContains_lastPart held⟩
    rw [single, List.mem_singleton] at matched
    rw [single, matched]
  · intro sound fs absent noRepo shown p answered
    rw [ModelSource.resolveModelDir_gguf env (ggufSpec_text absent noRepo)] at answered
    split at answered
    next cached =>
      obtain rfl : _ = p := by simpa using answered
      obtain ⟨f, downloaded, place, held, same⟩ := cached_downloaded fresh shown cached
      exact ⟨f, selectGgufFile_ok_iff.mpr (sound f downloaded place held), same⟩
    · simp at answered

/-- Two variants of one repository. -/
def twoVariants : Json :=
  .obj [(.ofAscii "siblings", .arr [.obj [(.ofAscii "rfilename", .str (.ofAscii "m-Q4_0.gguf"))],
    .obj [(.ofAscii "rfilename", .str (.ofAscii "m-Q4_K_M.gguf"))]])]

def model : ModelSource.RepoId := ⟨.ofAscii "o", .ofAscii "n", by decide, by decide, by decide +kernel⟩

theorem q4_0_downloaded : Downloaded twoVariants [.ofAscii "Q4_0"] (.ofAscii "m-Q4_0.gguf") :=
  ⟨.ofAscii "Q4_0", by simp, by decide +kernel⟩

theorem q4_0_stored (env : Env) (cwd : Place) :
    stored cwd (ModelSource.ggufDir env model.text) (.ofAscii "m-Q4_0.gguf") =
      locate cwd (ModelSource.ggufDir env model.text) ++ [lastPart (.ofAscii "m-Q4_0.gguf")] := by
  have whole : lastPart (.ofAscii "m-Q4_0.gguf") = .ofAscii "m-Q4_0.gguf" := by decide +kernel
  have plain : Plain (.ofAscii "m-Q4_0.gguf") := plain_gguf (by decide) (by decide)
  rw [whole]
  exact plain.locate_join

/-- After a download of `Q4_0`, the cache does not answer `Q8`. -/
theorem cached_gguf_agrees_q8 :
    Downloaded twoVariants [.ofAscii "Q4_0"] (.ofAscii "m-Q4_0.gguf") ∧
      ∀ fs, fs.exist (.ofAscii "o/n:Q8") = false → fs.exist (.ofAscii "o/n") = false →
        Shows fs [] (ModelSource.ggufDir { home := .ofAscii "/u" } model.text)
          (afterHistory [] twoVariants (ModelSource.ggufDir { home := .ofAscii "/u" } model.text) 7 []
            [.ofAscii "Q4_0"]) →
        ∀ p, ModelSource.resolveModelDir fs { home := .ofAscii "/u" } (.ofAscii "o/n:Q8") = .ok (.path p) →
          ∃ f, selectGgufFile (parseRepoSiblings twoVariants) (.ofAscii "Q8") = .ok f ∧
            locate [] p = stored [] (ModelSource.ggufDir { home := .ofAscii "/u" } model.text) f := by
  refine ⟨q4_0_downloaded, (cached_gguf_agrees_iff { home := .ofAscii "/u" } [] model twoVariants 7 []
    [.ofAscii "Q4_0"] (.ofAscii "Q8") (fun _ => List.not_mem_nil) (by decide +kernel)).mpr ?_⟩
  intro f downloaded _ held
  obtain ⟨earlier, member, only⟩ := downloaded
  have first : ggufMatches (parseRepoSiblings twoVariants) (.ofAscii "Q4_0") = [.ofAscii "m-Q4_0.gguf"] := by
    decide +kernel
  rw [List.mem_singleton.mp member, first] at only
  obtain rfl := List.singleton_inj.mp only
  exact absurd held (by decide +kernel)

/-- After `Q4_0` the cache answers the tag `Q4`, which names two files of the repository. -/
theorem cached_gguf_ambiguous :
    ¬∀ (env : Env) (cwd : Place) (r : ModelSource.RepoId) (info : Json) (pid : Nat) (history : List Bytes)
        (variant : Bytes) (fs : FileSystem), fs.exist (r.text ++ 0x3A :: variant) = false → fs.exist r.text = false →
      Shows fs cwd (ModelSource.ggufDir env r.text)
        (afterHistory cwd info (ModelSource.ggufDir env r.text) pid [] history) →
      ∀ p, ModelSource.resolveModelDir fs env (r.text ++ 0x3A :: variant) = .ok (.path p) →
        ∃ f, selectGgufFile (parseRepoSiblings info) (variantTag variant) = .ok f ∧
          locate cwd p = stored cwd (ModelSource.ggufDir env r.text) f := by
  intro agrees
  obtain ⟨fs, absent, noRepo, shown, answered⟩ := exists_answer { home := .ofAscii "/u" } [] model 7 []
    (.ofAscii "Q4") (by decide +kernel) q4_0_downloaded (q4_0_stored _ _) (by decide +kernel)
  obtain ⟨f, chosen, _⟩ := agrees _ _ _ twoVariants _ [.ofAscii "Q4_0"] _ fs absent noRepo shown _ answered
  have both : ggufMatches (parseRepoSiblings twoVariants) (.ofAscii "Q4") =
      [.ofAscii "m-Q4_0.gguf", .ofAscii "m-Q4_K_M.gguf"] := by decide +kernel
  have single := selectGgufFile_ok_iff.mp chosen
  rw [show variantTag (.ofAscii "Q4") = .ofAscii "Q4" from rfl, both] at single
  cases single

end Mlxforge.HfDownload
