import Mlxforge.Cache.BlockStore

/-!
What the recovery scan makes of a directory: an index that agrees with the files exactly when each counted file has the
name that the store gives its key.
-/

namespace Mlxforge

namespace BlockStore

variable {dir : Directory} {budget : Nat} {s : BlockStore} {name : FileName} {f : DirEntry} {hash : UInt64}

/-- A counted file is the one its key is looked up under when its stem is sixteen lower-case digits. -/
theorem countedAs_own (counted : countedAs name f = some hash) :
    f.regular = true ∧ (name = pathOf hash ↔ Canonical (splitName name).1) := by
  unfold countedAs at counted
  split at counted
  · rename_i shape
    refine ⟨shape.1, ?_⟩
    rw [← canonical_iff counted]
    constructor
    · intro own
      rw [own, splitName_pathOf]
    · intro own
      rw [← splitName_parts name, own, shape.2]
      rfl
  · cases counted

/-- What a scan over the files of `found` has entered. -/
structure Scanned (found : List Found) (s : BlockStore) : Prop where
  counted : ∀ f ∈ found, f.hash ∈ s.index
  entered : ∀ hash e, s.index.lookup hash = some e → ∃ f ∈ found, f.hash = hash ∧ f.bytes = e.bytes
  sum : (found.map Found.hash).Nodup → s.bytes = s.index.total Entry.bytes

theorem indexFound_scanned {found : List Found} (scanned : Scanned found s) (f : Found) :
    Scanned (found ++ [f]) (s.indexFound f) where
  counted := by
    intro g member
    rw [indexFound, AList.mem_insert]
    rcases List.mem_append.mp member with old | new
    · exact .inr (scanned.counted g old)
    · exact .inl (congrArg Found.hash (List.mem_singleton.mp new))
  entered := by
    intro hash e held
    rw [indexFound, Table.lookup_insert_eq] at held
    split at held
    · rename_i same
      obtain rfl := Option.some.inj held
      exact ⟨f, List.mem_append_right _ (List.mem_singleton_self f), same.symm, rfl⟩
    · obtain ⟨g, member, key, size⟩ := scanned.entered hash e held
      exact ⟨g, List.mem_append_left _ member, key, size⟩
  sum := by
    intro distinct
    rw [List.map_append, List.map_singleton, List.nodup_append] at distinct
    obtain ⟨before, _, apart⟩ := distinct
    have fresh : f.hash ∉ s.index := by
      intro held
      obtain ⟨e, held⟩ := Option.isSome_iff_exists.mp (AList.lookup_isSome.mpr held)
      obtain ⟨g, member, key, _⟩ := scanned.entered _ _ held
      exact apart g.hash (List.mem_map_of_mem member) f.hash (List.mem_singleton_self _) key
    have sum := scanned.sum before
    change s.bytes + f.bytes = Table.total Entry.bytes (s.index.insert f.hash ⟨f.bytes, s.stamp + 1⟩)
    rw [Table.total_insert, Table.erase_of_notMem fresh, sum, Nat.add_comm]

theorem foldl_scanned {found before : List Found} (scanned : Scanned before s) :
    Scanned (before ++ found) (found.foldl indexFound s) ∧ (found.foldl indexFound s).files = s.files := by
  induction found generalizing s before with
  | nil => exact ⟨by rwa [List.append_nil], rfl⟩
  | cons f found ih =>
    obtain ⟨rest, files⟩ := ih (indexFound_scanned scanned f)
    rw [List.append_assoc, List.singleton_append] at rest
    exact ⟨rest, files⟩

theorem new_scanned (dir : Directory) (budget : Nat) :
    Scanned ((findBlocks dir).mergeSort fun a b => a.mtime ≤ b.mtime) (new dir budget) ∧ (new dir budget).files = dir := by
  have empty : Scanned [] ({ budget, files := dir } : BlockStore) := by
    refine ⟨fun f member => ?_, fun hash e held => ?_, fun _ => rfl⟩
    · cases member
    · cases held
  exact foldl_scanned empty

theorem mem_findBlocks {f : Found} : f ∈ findBlocks dir ↔
    ∃ name e, dir.lookup name = some e ∧ countedAs name e = some f.hash ∧ f.mtime = e.mtime ∧ f.bytes = e.content.length := by
  rw [findBlocks, List.mem_filterMap]
  constructor
  · rintro ⟨⟨name, e⟩, member, made⟩
    obtain ⟨hash, counted, rfl⟩ := Option.map_eq_some_iff.mp made
    exact ⟨name, e, Table.mem_iff.mp member, counted, rfl, rfl⟩
  · rintro ⟨name, e, held, counted, mtime, bytes⟩
    refine ⟨⟨name, e⟩, Table.mem_iff.mpr held, ?_⟩
    rw [counted, Option.map_some, ← mtime, ← bytes]

/-- The index agrees with the directory it was read from. -/
structure Consistent (dir : Directory) (s : BlockStore) : Prop where
  named : ∀ hash ∈ s.index, ∃ f, dir.lookup (pathOf hash) = some f ∧ countedAs (pathOf hash) f = some hash
  opens : ∀ hash e, s.index.lookup hash = some e → ∃ bytes, (s.get hash).1 = some bytes ∧ bytes.length = e.bytes
  unique : ∀ name name' f f' hash, dir.lookup name = some f → dir.lookup name' = some f' →
    countedAs name f = some hash → countedAs name' f' = some hash → name = name'
  sum : s.bytes = s.index.total Entry.bytes
  evicts : ∀ name f hash e, dir.lookup name = some f → countedAs name f = some hash → s.index.lookup hash = some e →
    name ∉ (s.evictEntry hash e).files

/-- After the scan the index agrees with the directory if and only if every regular `.kvb` file whose stem `std::stoull`
takes for a number has a stem of sixteen lower-case hexadecimal digits. -/
theorem scan_consistent_iff (dir : Directory) (budget : Nat) :
    Consistent dir (new dir budget) ↔
      ∀ name f, dir.lookup name = some f → (countedAs name f).isSome → Canonical (splitName name).1 := by
  obtain ⟨scanned, files⟩ := new_scanned dir budget
  have sorted := List.mergeSort_perm (findBlocks dir) fun a b => decide (a.mtime ≤ b.mtime)
  constructor
  · intro consistent name f held counted
    obtain ⟨hash, counted⟩ := Option.isSome_iff_exists.mp counted
    have found := sorted.mem_iff.mpr (mem_findBlocks.mpr
      ⟨name, f, held, counted, rfl, rfl⟩ : (⟨f.mtime, hash, f.content.length⟩ : Found) ∈ findBlocks dir)
    obtain ⟨e, indexed⟩ := Option.isSome_iff_exists.mp (AList.lookup_isSome.mpr (scanned.counted _ found))
    have gone := consistent.evicts name f hash e held counted indexed
    have here : name ∈ dir := AList.lookup_isSome.mp (by rw [held]; rfl)
    rw [evictEntry, AList.mem_erase, files] at gone
    apply (countedAs_own counted).2.mp
    by_contra other
    exact gone ⟨other, here⟩
  · intro canonical
    have own : ∀ name f hash, dir.lookup name = some f → countedAs name f = some hash → name = pathOf hash := by
      intro name f hash held counted
      exact (countedAs_own counted).2.mpr (canonical name f held (by rw [counted]; rfl))
    have origin : ∀ hash e, (new dir budget).index.lookup hash = some e → ∃ f, dir.lookup (pathOf hash) = some f ∧
        countedAs (pathOf hash) f = some hash ∧ f.content.length = e.bytes := by
      intro hash e indexed
      obtain ⟨g, member, rfl, size⟩ := scanned.entered hash e indexed
      obtain ⟨name, f, held, counted, _, bytes⟩ := mem_findBlocks.mp (sorted.mem_iff.mp member)
      obtain rfl := own name f g.hash held counted
      exact ⟨f, held, counted, by rw [← bytes, size]⟩
    have distinct : ((findBlocks dir).map Found.hash).Nodup := by
      rw [findBlocks, List.map_filterMap, List.Nodup, List.pairwise_filterMap]
      refine (List.nodupKeys_iff_pairwise.mp dir.nodupKeys).imp_of_mem fun {e e'} member member' apart => ?_
      intro hash made hash' made' same
      simp only [Option.map_map, Option.map_eq_some_iff, Function.comp_apply] at made made'
      obtain ⟨_, counted, rfl⟩ := made
      obtain ⟨_, counted', rfl⟩ := made'
      apply apart
      rw [own e.1 e.2 _ (Table.mem_iff.mp member) counted, own e'.1 e'.2 _ (Table.mem_iff.mp member') counted']
      exact congrArg pathOf same
    refine ⟨fun hash indexed => ?_, fun hash e indexed => ?_, fun name name' f f' hash held held' counted counted' => ?_,
      scanned.sum ((sorted.map _).nodup_iff.mpr distinct), fun name f hash e held counted indexed => ?_⟩
    · obtain ⟨e, indexed⟩ := Option.isSome_iff_exists.mp (AList.lookup_isSome.mpr indexed)
      obtain ⟨f, held, counted, _⟩ := origin hash e indexed
      exact ⟨f, held, counted⟩
    · obtain ⟨f, held, counted, size⟩ := origin hash e indexed
      refine ⟨f.content, ?_, size⟩
      rw [get, indexed]
      change readFile (new dir budget).files (pathOf hash) = some f.content
      rw [files, readFile, held]
      exact if_pos (countedAs_own counted).1
    · rw [own name f hash held counted, own name' f' hash held' counted']
    · rw [evictEntry, AList.mem_erase, own name f hash held counted]
      exact fun ⟨other, _⟩ => other rfl

/-- A file `1.kvb` of one byte. -/
def strayFile : Directory := AList.singleton [0x31, 0x2E, 0x6B, 0x76, 0x62] { mtime := 0, content := [0x00] }

/-- It is counted as key 1, whose block would lie in `0000000000000001.kvb`. -/
theorem stray_scan : ¬Consistent strayFile (new strayFile 0) := by
  intro consistent
  have counted : countedAs [0x31, 0x2E, 0x6B, 0x76, 0x62] { mtime := 0, content := [0x00] } = some 1 := by decide
  have found : (⟨0, 1, 1⟩ : Found) ∈ findBlocks strayFile := mem_findBlocks.mpr ⟨_, _, rfl, counted, rfl, rfl⟩
  have indexed := (new_scanned strayFile 0).1.counted _ ((List.mergeSort_perm _ _).mem_iff.mpr found)
  obtain ⟨f, held, _⟩ := consistent.named 1 indexed
  have missing : pathOf 1 ∉ strayFile := by decide
  rw [AList.lookup_eq_none.mpr missing] at held
  cases held

end BlockStore

end Mlxforge
