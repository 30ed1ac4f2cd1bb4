import Mlxforge.Cache.BlockStore

/-!
The accounts of the disk tier, over every interleaving of calls with the writer's steps: the byte count is that of the
index, and the index that of the files.
-/

namespace Mlxforge

namespace BlockStore

variable {files : Directory} {index index' : Table UInt64 Entry} {hash : UInt64} {e : Entry} {f : DirEntry} {s t : BlockStore}

def sizeOf (files : Directory) (name : FileName) : Option Nat := (files.lookup name).map (·.content.length)

def recorded (index : Table UInt64 Entry) (hash : UInt64) : Option Nat := (index.lookup hash).map Entry.bytes

/-! ### The index and the files -/

/-- The files are those of the index's blocks, of the recorded sizes. -/
structure Mirrors (files : Directory) (index : Table UInt64 Entry) : Prop where
  sizes : ∀ hash, sizeOf files (pathOf hash) = recorded index hash
  named : ∀ name ∈ files, ∃ hash, name = pathOf hash

theorem Mirrors.congr (mirrors : Mirrors files index) (same : ∀ hash, recorded index' hash = recorded index hash) :
    Mirrors files index' := ⟨fun hash => (mirrors.sizes hash).trans (same hash).symm, mirrors.named⟩

theorem Mirrors.erase (mirrors : Mirrors files index) (hash : UInt64) :
    Mirrors (files.erase (pathOf hash)) (index.erase hash) where
  sizes := by
    intro h
    have sizes := mirrors.sizes h
    simp only [sizeOf, recorded, Table.lookup_erase_eq] at sizes ⊢
    by_cases same : h = hash
    · rw [if_pos (congrArg pathOf same), if_pos same]
      rfl
    · rw [if_neg fun eq => same (pathOf_injective eq), if_neg same]
      exact sizes
  named := fun name member => mirrors.named name (AList.mem_erase.mp member).2

/-- The missing file and its entry are put back together. -/
theorem Mirrors.enter (mirrors : Mirrors (files.erase (pathOf hash)) (index.erase hash))
    (here : sizeOf files (pathOf hash) = some e.bytes) : Mirrors files (index.insert hash e) where
  sizes := by
    intro h
    have sizes := mirrors.sizes h
    simp only [sizeOf, recorded, Table.lookup_erase_eq, Table.lookup_insert_eq] at sizes ⊢
    by_cases same : h = hash
    · rw [if_pos same, same]
      exact here
    · rw [if_neg fun eq => same (pathOf_injective eq), if_neg same] at sizes
      rw [if_neg same]
      exact sizes
  named := by
    intro name member
    by_cases own : name = pathOf hash
    · exact ⟨hash, own⟩
    · exact mirrors.named name (AList.mem_erase.mpr ⟨own, member⟩)

/-- A file is put under a key's name in place of the old one. -/
theorem Mirrors.replace (mirrors : Mirrors files index) (hash : UInt64) (f : DirEntry) :
    Mirrors ((files.insert (pathOf hash) f).erase (pathOf hash)) (index.erase hash) := by
  have rest := mirrors.erase hash
  refine ⟨fun h => ?_, fun name member => ?_⟩
  · rw [← rest.sizes h]
    simp only [sizeOf, Table.lookup_erase_eq, Table.lookup_insert_eq]
    split <;> rfl
  · obtain ⟨other, member⟩ := AList.mem_erase.mp member
    exact mirrors.named name (((AList.mem_insert _).mp member).resolve_left other)

theorem Mirrors.onDisk (mirrors : Mirrors files index) : onDisk files = index.total Entry.bytes := by
  have same : (files.entries.map fun e => (e.1, e.2.content.length)).Perm
      (index.entries.map fun e => (pathOf e.1, e.2.bytes)) := by
    have names : (files.entries.map fun e => (e.1, e.2.content.length)).Nodup := by
      apply List.Nodup.of_map Prod.fst
      rw [List.map_map]
      exact files.keys_nodup
    have keys : (index.entries.map fun e => (pathOf e.1, e.2.bytes)).Nodup := by
      apply List.Nodup.of_map Prod.fst
      rw [List.map_map]
      have paths := index.keys_nodup.map pathOf_injective
      rw [AList.keys, List.keys, List.map_map] at paths
      exact paths
    rw [List.perm_ext_iff_of_nodup names keys]
    rintro ⟨name, size⟩
    simp only [List.mem_map, Prod.mk.injEq]
    constructor
    · rintro ⟨⟨name, f⟩, member, rfl, rfl⟩
      have held := Table.mem_iff.mp member
      obtain ⟨hash, rfl⟩ := mirrors.named name (AList.lookup_isSome.mp (by rw [held]; rfl))
      have sizes := mirrors.sizes hash
      rw [sizeOf, held] at sizes
      obtain ⟨e, indexed, size⟩ := Option.map_eq_some_iff.mp sizes.symm
      exact ⟨⟨hash, e⟩, Table.mem_iff.mpr indexed, rfl, size⟩
    · rintro ⟨⟨hash, e⟩, member, rfl, rfl⟩
      have sizes := mirrors.sizes hash
      rw [recorded, Table.mem_iff.mp member] at sizes
      obtain ⟨f, held, size⟩ := Option.map_eq_some_iff.mp sizes
      exact ⟨⟨pathOf hash, f⟩, Table.mem_iff.mpr held, rfl, size⟩
  have kept : (files.entries.map fun e => if (splitName e.1).2 = kvb then e.2.content.length else 0) =
      (files.entries.map fun e => (e.1, e.2.content.length)).map Prod.snd := by
    rw [List.map_map]
    refine List.map_congr_left fun e member => ?_
    have held := Table.mem_iff.mp member
    obtain ⟨hash, own⟩ := mirrors.named e.1 (AList.lookup_isSome.mp (by rw [held]; rfl))
    rw [own, splitName_pathOf]
    exact if_pos rfl
  have sums := (same.map Prod.snd).sum_eq
  rw [List.map_map (f := fun e : Sigma fun _ => Entry => _)] at sums
  rw [BlockStore.onDisk, kept]
  exact sums

/-! ### Stamps -/

structure Stamped (index : Table UInt64 Entry) (stamp : Nat) : Prop where
  below : ∀ hash e, index.lookup hash = some e → e.stamp ≤ stamp
  apart : ∀ hash hash' e e', index.lookup hash = some e → index.lookup hash' = some e' → e.stamp = e'.stamp → hash = hash'

theorem Stamped.use {stamp : Nat} (stamped : Stamped index stamp) (hash : UInt64) (bytes : Nat) :
    Stamped (index.insert hash ⟨bytes, stamp + 1⟩) (stamp + 1) where
  below := by
    intro h e held
    rw [Table.lookup_insert_eq] at held
    split at held
    · obtain rfl := Option.some.inj held
      exact Nat.le_refl _
    · exact Nat.le_succ_of_le (stamped.below h e held)
  apart := by
    intro h h' e e' held held' same
    rw [Table.lookup_insert_eq] at held held'
    split at held
    · rename_i here
      obtain rfl := Option.some.inj held
      split at held'
      · rename_i here'
        rw [here, here']
      · exact absurd (stamped.below h' e' held') (by rw [← same]; exact Nat.not_succ_le_self stamp)
    · split at held'
      · obtain rfl := Option.some.inj held'
        exact absurd (stamped.below h e held) (by rw [same]; exact Nat.not_succ_le_self stamp)
      · exact stamped.apart h h' e e' held held' same

theorem Stamped.erase {stamp : Nat} (stamped : Stamped index stamp) (hash : UInt64) : Stamped (index.erase hash) stamp := by
  have kept : ∀ h e, (index.erase hash).lookup h = some e → index.lookup h = some e := by
    intro h e held
    rw [Table.lookup_erase_eq] at held
    split at held
    · cases held
    · exact held
  exact ⟨fun h e held => stamped.below h e (kept h e held),
    fun h h' e e' held held' => stamped.apart h h' e e' (kept h e held) (kept h' e' held')⟩

/-! ### Eviction -/

/-- The accounts where no file is in the making. -/
structure Books (s : BlockStore) : Prop where
  sum : s.bytes = s.index.total Entry.bytes
  mirrors : Mirrors s.files s.index
  stamped : Stamped s.index s.stamp

/-- `t` is what evictions make of `s`: each one found more than the budget on disk. -/
structure Evicts (s t : BlockStore) : Prop where
  books : Books t
  budget : t.budget = s.budget
  queue : t.queue = s.queue
  needed : ∀ e ∈ t.evictions, e ∈ s.evictions ∨ s.budget < e.2

theorem evictEntry_spec (books : Books s) (held : s.index.lookup hash = some e) (full : s.budget < s.bytes) :
    Evicts s (s.evictEntry hash e) where
  books := by
    refine ⟨?_, books.mirrors.erase hash, books.stamped.erase hash⟩
    change s.bytes - e.bytes = Table.total Entry.bytes (s.index.erase hash)
    rw [books.sum, Table.total_erase held, Nat.add_sub_cancel_left]
  budget := rfl
  queue := rfl
  needed := by
    intro v member
    rcases List.mem_append.mp member with old | new
    · exact .inl old
    · refine .inr ?_
      rw [List.mem_singleton.mp new, books.mirrors.onDisk, ← books.sum]
      exact full

theorem evictLoop_spec (n : Nat) (books : Books s) (turns : s.index.entries.length ≤ n) :
    Evicts s (evictLoop n s) ∧
      ((evictLoop n s).bytes ≤ s.budget ∨ (evictLoop n s).index.entries.length ≤ 1) := by
  induction n generalizing s with
  | zero => exact ⟨⟨books, rfl, rfl, fun _ => .inl⟩, .inr (turns.trans (Nat.zero_le 1))⟩
  | succ n ih =>
    unfold evictLoop
    split
    · rename_i full
      obtain ⟨victim, oldest⟩ := Table.least_isSome (m := Entry.stamp)
        (List.ne_nil_of_length_pos (Nat.zero_lt_of_lt full.2) : s.index.entries ≠ [])
      rw [oldest]
      dsimp only
      have held := (Table.least_spec oldest).1
      have first := evictEntry_spec books held full.1
      have fewer := Table.length_erase held
      obtain ⟨rest, stopped⟩ := ih first.books (by change (s.index.erase victim.1).entries.length ≤ n; omega)
      refine ⟨⟨rest.books, rest.budget.trans first.budget, rest.queue.trans first.queue, fun v member => ?_⟩, stopped⟩
      exact (rest.needed v member).elim (first.needed v) .inr
    · rename_i enough
      refine ⟨⟨books, rfl, rfl, fun _ => .inl⟩, ?_⟩
      by_cases full : s.budget < s.bytes
      · exact .inr (Nat.not_lt.mp fun more => enough ⟨full, more⟩)
      · exact .inl (Nat.not_lt.mp full)

theorem evictToBudget_spec (books : Books s) :
    Evicts s (evictToBudget s) ∧ (s.budget ≠ 0 → (evictToBudget s).bytes ≤ s.budget ∨
      (evictToBudget s).index.entries.length ≤ 1) := by
  unfold evictToBudget
  split
  · rename_i unbounded
    exact ⟨⟨books, rfl, rfl, fun _ => .inl⟩, fun bounded => absurd unbounded bounded⟩
  · obtain ⟨evicts, stopped⟩ := evictLoop_spec _ books (Nat.le_refl _)
    exact ⟨evicts, fun _ => stopped⟩

/-! ### Runs -/

/-- The file in the making, besides those of the index. -/
def Settled (s : BlockStore) : Prop :=
  match s.writer with
  | .renaming hash bytes => Mirrors (s.files.erase (tmpOf hash)) s.index ∧ sizeOf s.files (tmpOf hash) = some bytes.length
  | .committing hash size true =>
    Mirrors (s.files.erase (pathOf hash)) (s.index.erase hash) ∧ sizeOf s.files (pathOf hash) = some size
  | _ => Mirrors s.files s.index

def Busy (s : BlockStore) : Prop :=
  match s.writer with
  | .waiting | .exited => False
  | _ => True

structure Accounted (s : BlockStore) : Prop where
  sum : s.bytes = s.index.total Entry.bytes
  stamped : Stamped s.index s.stamp
  settled : Settled s
  within : s.budget ≠ 0 → s.bytes ≤ s.budget ∨ s.index.entries.length ≤ 1
  needed : ∀ e ∈ s.evictions, s.budget < e.2
  busy : Busy s → s.queue ≠ []

/-- The writer's file operations succeed and nobody else touches the directory. -/
def Succeeds : Act → Prop
  | .write ok _ => ok = true
  | .rename ok => ok = true
  | .tamper _ => False
  | _ => True

instance : DecidablePred Succeeds
  | .write ok _ | .rename ok => inferInstanceAs (Decidable (ok = true))
  | .tamper _ => .isFalse id
  | .put _ _ | .get _ | .contains _ | .stop | .take | .commit => .isTrue trivial

/-- The writer does not enter a block in place of one that the index counts. -/
def Fresh (s : BlockStore) (a : Act) : Prop :=
  match a, s.writer with
  | .commit, .committing hash _ true => (recorded s.index hash).getD 0 = 0
  | _, _ => True

instance (s : BlockStore) : DecidablePred (Fresh s) := fun a => by
  unfold Fresh
  split
  · infer_instance
  · exact .isTrue trivial

theorem recorded_stamp (held : index.lookup hash = some e) (stamp : Nat) :
    ∀ h, recorded (index.insert hash { e with stamp }) h = recorded index h := by
  intro h
  rw [recorded, recorded, Table.lookup_insert_eq]
  split
  · rename_i same
    rw [same, held]
    rfl
  · rfl

theorem get_accounted (accounted : Accounted s) (hash : UInt64) : Accounted (s.get hash).2 := by
  unfold get
  split
  · exact accounted
  · rename_i e held
    have same := recorded_stamp held (s.stamp + 1)
    have gone : ∀ h h', recorded ((s.index.insert hash { e with stamp := s.stamp + 1 }).erase h') h =
        recorded (s.index.erase h') h := by
      intro h h'
      have here := same h
      simp only [recorded, Table.lookup_erase_eq] at here ⊢
      split
      · rfl
      · exact here
    refine ⟨accounted.sum.trans (Table.total_update held rfl).symm, accounted.stamped.use hash e.bytes, ?_, ?_,
      accounted.needed, accounted.busy⟩
    · have settled := accounted.settled
      unfold Settled at settled ⊢
      dsimp only
      split at settled
      · exact ⟨settled.1.congr same, settled.2⟩
      · exact ⟨settled.1.congr (gone · _), settled.2⟩
      · exact settled.congr same
    · intro bounded
      refine (accounted.within bounded).imp_right fun few => ?_
      have more := Table.length_erase held
      change (⟨hash, _⟩ :: (s.index.erase hash).entries).length ≤ 1
      rw [List.length_cons]
      omega

theorem mirrors_tmp (mirrors : Mirrors files index) (hash : UInt64) (f : DirEntry) :
    Mirrors ((files.insert (tmpOf hash) f).erase (tmpOf hash)) index where
  sizes := by
    intro h
    have own : pathOf h ≠ tmpOf hash := (tmpOf_ne_pathOf hash h).symm
    rw [← mirrors.sizes h, sizeOf, sizeOf, AList.lookup_erase_ne own, AList.lookup_insert_ne own]
  named := by
    intro name member
    obtain ⟨other, member⟩ := AList.mem_erase.mp member
    exact mirrors.named name (((AList.mem_insert _).mp member).resolve_left other)

/-- What the writer enters is added to the accounts. -/
theorem enter_books {size : Nat} (accounted : Accounted s) (atCommit : s.writer = .committing hash size true)
    (fresh : Fresh s .commit) : Books (s.enter hash size) where
  sum := by
    change s.bytes + size = Table.total Entry.bytes (s.index.insert hash ⟨size, s.stamp + 1⟩)
    rw [Table.total_insert, accounted.sum]
    cases held : s.index.lookup hash with
    | none =>
      rw [Table.erase_of_notMem (AList.lookup_eq_none.mp held)]
      exact Nat.add_comm _ _
    | some e =>
      unfold Fresh at fresh
      rw [atCommit] at fresh
      dsimp only at fresh
      rw [recorded, held] at fresh
      have none : e.bytes = 0 := fresh
      rw [Table.total_erase held, none, Nat.zero_add]
      exact Nat.add_comm _ _
  mirrors := by
    have settled := accounted.settled
    unfold Settled at settled
    rw [atCommit] at settled
    exact settled.1.enter settled.2
  stamped := accounted.stamped.use hash size

theorem commit_accounted {size : Nat} (accounted : Accounted s) (atCommit : s.writer = .committing hash size true)
    (fresh : Fresh s .commit) :
    Accounted { evictToBudget (s.enter hash size) with queue := (evictToBudget (s.enter hash size)).queue.tail, writer := .waiting } := by
  obtain ⟨evicts, stopped⟩ := evictToBudget_spec (enter_books accounted atCommit fresh)
  refine ⟨evicts.books.sum, evicts.books.stamped, evicts.books.mirrors, fun bounded => ?_, fun e member => ?_, nofun⟩
  · rw [evicts.budget] at bounded ⊢
    exact stopped bounded
  · change (evictToBudget (s.enter hash size)).budget < e.2
    rw [evicts.budget]
    exact (evicts.needed e member).elim (accounted.needed e) id

theorem step_accounted {a : Act} (accounted : Accounted s) (succeeds : Succeeds a) (fresh : Fresh s a)
    (stepped : step s a = some t) : Accounted t := by
  have settled := accounted.settled
  unfold Settled at settled
  cases a with
  | put hash bytes =>
    obtain rfl := Option.some.inj stepped
    unfold put
    split
    · exact accounted
    · exact ⟨accounted.sum, accounted.stamped, accounted.settled, accounted.within, accounted.needed, fun _ => by simp⟩
  | get hash =>
    obtain rfl := Option.some.inj stepped
    exact get_accounted accounted hash
  | contains hash =>
    obtain rfl := Option.some.inj stepped
    exact accounted
  | stop =>
    obtain rfl := Option.some.inj stepped
    exact ⟨accounted.sum, accounted.stamped, accounted.settled, accounted.within, accounted.needed, accounted.busy⟩
  | take =>
    obtain ⟨waiting, ⟨hash, bytes, rest, queued, rfl⟩ | ⟨_, _, rfl⟩⟩ := take_cases stepped
    · rw [waiting] at settled
      exact ⟨accounted.sum, accounted.stamped, settled, accounted.within, accounted.needed, fun _ => by simp [queued]⟩
    · rw [waiting] at settled
      exact ⟨accounted.sum, accounted.stamped, settled, accounted.within, accounted.needed, nofun⟩
  | write ok now =>
    obtain rfl : ok = true := succeeds
    obtain ⟨hash, bytes, writing, ⟨_, rfl⟩ | ⟨failed, _⟩⟩ := write_cases stepped
    · rw [writing] at settled
      have busy := accounted.busy (by rw [Busy, writing]; trivial)
      refine ⟨accounted.sum, accounted.stamped, ⟨mirrors_tmp settled hash _, ?_⟩, accounted.within, accounted.needed,
        fun _ => busy⟩
      rw [sizeOf, AList.lookup_insert]
      rfl
    · cases failed
  | rename ok =>
    obtain rfl : ok = true := succeeds
    obtain ⟨hash, bytes, atRename, renamed⟩ := rename_cases stepped
    rw [atRename] at settled
    have busy := accounted.busy (by rw [Busy, atRename]; trivial)
    obtain ⟨f, held, size⟩ := Option.map_eq_some_iff.mp settled.2
    rcases renamed with ⟨f', _, held', rfl⟩ | ⟨failed | missing, _⟩
    · obtain rfl : f = f' := Option.some.inj (held.symm.trans held')
      refine ⟨accounted.sum, accounted.stamped, ⟨settled.1.replace hash f, ?_⟩, accounted.within, accounted.needed,
        fun _ => busy⟩
      rw [sizeOf, AList.lookup_insert]
      exact congrArg some size
    · cases failed
    · rw [AList.lookup_eq_none.mpr missing] at held
      cases held
  | commit =>
    obtain ⟨hash, size, ⟨committing, rfl⟩ | ⟨committing, rfl⟩⟩ := commit_cases stepped
    · exact commit_accounted accounted committing fresh
    · rw [committing] at settled
      exact ⟨accounted.sum, accounted.stamped, settled, accounted.within, accounted.needed, nofun⟩
  | tamper files => exact succeeds.elim

/-- What the accounts come to when nothing is queued. -/
structure Balanced (s : BlockStore) : Prop where
  sum : s.bytes = s.index.total Entry.bytes
  files : ∀ hash, sizeOf s.files (pathOf hash) = recorded s.index hash
  stamps : ∀ hash hash' e e', s.index.lookup hash = some e → s.index.lookup hash' = some e' → e.stamp = e'.stamp →
    hash = hash'
  within : s.budget ≠ 0 → s.bytes ≤ s.budget ∨ s.index.entries.length ≤ 1

theorem Accounted.balanced (accounted : Accounted s) (drained : s.queue = []) : Balanced s := by
  have idle : ¬Busy s := fun busy => accounted.busy busy drained
  have mirrors : Mirrors s.files s.index := by
    have settled := accounted.settled
    unfold Settled at settled
    split at settled
    · rename_i atRename
      exact (idle (by rw [Busy, atRename]; trivial)).elim
    · rename_i committing
      exact (idle (by rw [Busy, committing]; trivial)).elim
    · exact settled
  exact ⟨accounted.sum, mirrors.sizes, accounted.stamped.apart, accounted.within⟩

theorem new_accounted (budget : Nat) : Accounted (new ∅ budget) := by
  rw [new_empty]
  refine ⟨rfl, ⟨fun _ _ held => ?_, fun _ _ _ _ held => ?_⟩, ⟨fun _ => rfl, fun _ member => ?_⟩, fun _ => .inr (Nat.zero_le 1),
    nofun, nofun⟩
  · cases held
  · cases held
  · exact absurd member (AList.notMem_empty _)

/-- In every run from an empty directory where the writer never enters a block in place of one that the index counts,
the accounts balance whenever the queue is empty, and blocks were evicted only when those on disk exceeded the budget. -/
theorem accounts_balance {budget : Nat}
    (run : Transition.Reachable step (fun s a => Succeeds a ∧ Fresh s a) (new ∅ budget) s) :
    (s.queue = [] → Balanced s) ∧ ∀ e ∈ s.evictions, s.budget < e.2 := by
  have accounted : Accounted s := run.invariant (new_accounted budget) fun accounted ok stepped =>
    step_accounted accounted ok.1 ok.2 stepped
  exact ⟨accounted.balanced, accounted.needed⟩

/-- The writer's steps for one job. -/
def persist : List Act := [.take, .write true 0, .rename true, .commit]

/-- A put of two blocks under a budget for one: the older one is evicted. -/
theorem accounts_balance_two : ∃ s,
    Transition.Reachable step (fun s a => Succeeds a ∧ Fresh s a) (new ∅ 3) s ∧ s.queue = [] ∧ s.evictions = [(1, 4)] ∧
      ((s.queue = [] → Balanced s) ∧ ∀ e ∈ s.evictions, s.budget < e.2) := by
  have run : ((.put 1 [0x07, 0x08] :: persist ++ .put 2 [0x09, 0x0A] :: persist).foldlM
      (fun s a => if Succeeds a ∧ Fresh s a then step s a else none) ({ budget := 3, files := ∅ } : BlockStore)).map
        (fun s => decide (s.queue = [] ∧ s.evictions = [(1, 4)])) = some true := by
    decide +kernel
  obtain ⟨s, ran, columns⟩ := Option.map_eq_some_iff.mp run
  obtain ⟨drained, evictions⟩ := of_decide_eq_true columns
  have reached := Transition.Reachable.of_allowed ran
  rw [← new_empty] at reached
  exact ⟨s, reached, drained, evictions, accounts_balance reached⟩

/-- A block of one byte is put twice before the writer takes it: two bytes are counted. -/
theorem counted_twice : ∃ s, Transition.Reachable step (fun _ a => Succeeds a) (new ∅ 0) s ∧ s.queue = [] ∧ ¬Balanced s := by
  have run : ((.put 1 [0x07] :: .put 1 [0x07] :: persist ++ persist).foldlM
      (fun s a => if Succeeds a then step s a else none) ({ budget := 0, files := ∅ } : BlockStore)).map
        (fun s => decide (s.queue = [] ∧ s.bytes ≠ s.index.total Entry.bytes)) = some true := by
    decide +kernel
  obtain ⟨s, ran, columns⟩ := Option.map_eq_some_iff.mp run
  obtain ⟨drained, differ⟩ := of_decide_eq_true columns
  have reached : Transition.Reachable step (fun _ a => Succeeds a) { budget := 0, files := ∅ } s :=
    Transition.Reachable.of_allowed ran
  rw [← new_empty] at reached
  exact ⟨s, reached, drained, fun balanced => differ balanced.sum⟩

end BlockStore

end Mlxforge
