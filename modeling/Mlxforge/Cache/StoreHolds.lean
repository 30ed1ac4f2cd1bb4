import Mlxforge.Cache.BlockStore

/-!
A block that was put stays in the store, queued or filed, until the budget calls for it: through all steps of the writer
and all calls, whatever the directory held before.
-/

namespace Mlxforge

namespace BlockStore

variable {s t : BlockStore} {hash : UInt64} {bytes : Bytes} {e : Entry} {files : Directory} {name : FileName}

/-! ### Order -/

/-- The queue's keys are new to each other and to the index, and the writer works at the queue's front. -/
structure Orderly (s : BlockStore) : Prop where
  job :
    match s.writer with
    | .waiting | .exited => True
    | .writing hash bytes | .renaming hash bytes => ∃ rest, s.queue = (hash, bytes) :: rest
    | .committing hash size _ => ∃ bytes rest, s.queue = (hash, bytes) :: rest ∧ size = bytes.length
  distinct : (s.queue.map Prod.fst).Nodup
  apart : ∀ hash ∈ s.queue.map Prod.fst, hash ∉ s.index
  stamps : ∀ hash e, s.index.lookup hash = some e → e.stamp ≤ s.stamp

theorem not_contains : s.contains hash = false ↔ hash ∉ s.index ∧ hash ∉ s.queue.map Prod.fst := by
  rw [contains, decide_eq_false_iff_not, not_or]

/-- What the loop leaves was there before. -/
structure Shrinks (s t : BlockStore) : Prop where
  queue : t.queue = s.queue
  stamp : t.stamp = s.stamp
  index : ∀ hash e, t.index.lookup hash = some e → s.index.lookup hash = some e

theorem evictLoop_shrinks (n : Nat) (s : BlockStore) : Shrinks s (evictLoop n s) := by
  induction n generalizing s with
  | zero => exact ⟨rfl, rfl, fun _ _ => id⟩
  | succ n ih =>
    unfold evictLoop
    split
    · split
      · exact ⟨rfl, rfl, fun _ _ => id⟩
      · rename_i victim _
        obtain ⟨queue, stamp, index⟩ := ih (s.evictEntry victim.1 victim.2)
        refine ⟨queue, stamp, fun hash e held => ?_⟩
        have held := index hash e held
        rw [evictEntry, Table.lookup_erase_eq] at held
        split at held
        · cases held
        · exact held
    · exact ⟨rfl, rfl, fun _ _ => id⟩

theorem evictToBudget_shrinks (s : BlockStore) : Shrinks s (evictToBudget s) := by
  unfold evictToBudget
  split
  · exact ⟨rfl, rfl, fun _ _ => id⟩
  · exact evictLoop_shrinks _ s

theorem Shrinks.mem (shrinks : Shrinks s t) (member : hash ∈ t.index) : hash ∈ s.index := by
  obtain ⟨e, held⟩ := Option.isSome_iff_exists.mp (AList.lookup_isSome.mpr member)
  exact AList.lookup_isSome.mp (by rw [shrinks.index hash e held]; rfl)

theorem mem_get (s : BlockStore) (hash h : UInt64) : h ∈ (s.get hash).2.index ↔ h ∈ s.index := by
  unfold get
  split
  · rfl
  · rename_i e held
    have here : hash ∈ s.index := AList.lookup_isSome.mp (by rw [held]; rfl)
    change h ∈ s.index.insert hash _ ↔ h ∈ s.index
    rw [AList.mem_insert]
    exact ⟨fun member => member.elim (fun same => same ▸ here) id, .inr⟩

theorem get_frame (s : BlockStore) (hash : UInt64) :
    (s.get hash).2.files = s.files ∧ (s.get hash).2.queue = s.queue ∧ (s.get hash).2.writer = s.writer := by
  unfold get
  split <;> exact ⟨rfl, rfl, rfl⟩

theorem lookup_enter {size : Nat} (below : ∀ hash e, s.index.lookup hash = some e → e.stamp ≤ s.stamp) :
    ∀ h e, (s.enter hash size).index.lookup h = some e → e.stamp ≤ s.stamp + 1 := by
  intro h e held
  rw [enter, Table.lookup_insert_eq] at held
  split at held
  · obtain rfl := Option.some.inj held
    exact Nat.le_refl _
  · exact Nat.le_succ_of_le (below h e held)

/-- A put keeps the order where the store has neither listed nor queued the key. -/
def Puts (s : BlockStore) : Act → Prop
  | .put hash _ => s.contains hash = false
  | _ => True

theorem put_orderly (orderly : Orderly s) (absent : s.contains hash = false) (bytes : Bytes) : Orderly (s.put hash bytes) := by
  obtain ⟨notIndexed, notQueued⟩ := not_contains.mp absent
  rw [put, if_neg notIndexed]
  refine ⟨?_, ?_, fun h member => ?_, orderly.stamps⟩
  · have job := orderly.job
    dsimp only
    split at job
    · trivial
    · trivial
    · obtain ⟨rest, queued⟩ := job
      exact ⟨rest ++ [(hash, bytes)], by rw [queued, List.cons_append]⟩
    · obtain ⟨rest, queued⟩ := job
      exact ⟨rest ++ [(hash, bytes)], by rw [queued, List.cons_append]⟩
    · obtain ⟨front, rest, queued, size⟩ := job
      exact ⟨front, rest ++ [(hash, bytes)], by rw [queued, List.cons_append], size⟩
  · rw [List.map_append, List.nodup_append]
    refine ⟨orderly.distinct, List.nodup_singleton _, fun a member b last => ?_⟩
    rw [List.mem_singleton.mp last]
    rintro rfl
    exact notQueued member
  · rw [List.map_append, List.mem_append] at member
    rcases member with member | last
    · exact orderly.apart h member
    · rw [List.mem_singleton.mp last]
      exact notIndexed

theorem step_orderly {a : Act} (orderly : Orderly s) (puts : Puts s a) (stepped : step s a = some t) : Orderly t := by
  have job := orderly.job
  cases a with
  | put hash bytes =>
    obtain rfl := Option.some.inj stepped
    exact put_orderly orderly puts bytes
  | get hash =>
    obtain rfl := Option.some.inj stepped
    obtain ⟨_, queue, writer⟩ := get_frame s hash
    refine ⟨by rw [writer, queue]; exact job, by rw [queue]; exact orderly.distinct, fun h member => ?_, ?_⟩
    · rw [queue] at member
      rw [mem_get]
      exact orderly.apart h member
    · unfold get
      split
      · exact orderly.stamps
      · intro h e held
        rw [Table.lookup_insert_eq] at held
        split at held
        · obtain rfl := Option.some.inj held
          exact Nat.le_refl _
        · exact Nat.le_succ_of_le (orderly.stamps h e held)
  | contains hash =>
    obtain rfl := Option.some.inj stepped
    exact orderly
  | stop =>
    obtain rfl := Option.some.inj stepped
    exact ⟨job, orderly.distinct, orderly.apart, orderly.stamps⟩
  | take =>
    obtain ⟨_, ⟨hash, bytes, rest, queued, rfl⟩ | ⟨_, _, rfl⟩⟩ := take_cases stepped
    · exact ⟨⟨rest, queued⟩, orderly.distinct, orderly.apart, orderly.stamps⟩
    · exact ⟨trivial, orderly.distinct, orderly.apart, orderly.stamps⟩
  | write ok now =>
    obtain ⟨hash, bytes, writing, ⟨_, rfl⟩ | ⟨_, rfl⟩⟩ := write_cases stepped
    · rw [writing] at job
      exact ⟨job, orderly.distinct, orderly.apart, orderly.stamps⟩
    · rw [writing] at job
      obtain ⟨rest, queued⟩ := job
      exact ⟨⟨bytes, rest, queued, rfl⟩, orderly.distinct, orderly.apart, orderly.stamps⟩
  | rename ok =>
    obtain ⟨hash, bytes, atRename, renamed⟩ := rename_cases stepped
    rw [atRename] at job
    obtain ⟨rest, queued⟩ := job
    rcases renamed with ⟨f, _, _, rfl⟩ | ⟨_, rfl⟩
    · exact ⟨⟨bytes, rest, queued, rfl⟩, orderly.distinct, orderly.apart, orderly.stamps⟩
    · exact ⟨⟨bytes, rest, queued, rfl⟩, orderly.distinct, orderly.apart, orderly.stamps⟩
  | commit =>
    have tail : ∀ h ∈ s.queue.tail.map Prod.fst, h ∈ s.queue.map Prod.fst := fun h member =>
      (List.tail_sublist _).map Prod.fst |>.subset member
    have shorter : (s.queue.tail.map Prod.fst).Nodup := orderly.distinct.sublist ((List.tail_sublist _).map Prod.fst)
    obtain ⟨hash, size, ⟨committing, rfl⟩ | ⟨committing, rfl⟩⟩ := commit_cases stepped
    · rw [committing] at job
      obtain ⟨bytes, rest, queued, _⟩ := job
      have shrinks := evictToBudget_shrinks (s.enter hash size)
      have queue : (evictToBudget (s.enter hash size)).queue = s.queue := shrinks.queue
      refine ⟨trivial, by rw [queue]; exact shorter, fun h member indexed => ?_, fun h e held => ?_⟩
      · rw [queue] at member
        rcases (AList.mem_insert _).mp (shrinks.mem indexed) with same | old
        · have distinct := orderly.distinct
          rw [queued, List.map_cons, List.nodup_cons] at distinct
          rw [queued, same] at member
          exact distinct.1 member
        · exact orderly.apart h (tail h member) old
      · change e.stamp ≤ (evictToBudget (s.enter hash size)).stamp
        rw [shrinks.stamp]
        exact lookup_enter orderly.stamps h e (shrinks.index h e held)
    · exact ⟨trivial, shorter, fun h member => orderly.apart h (tail h member), orderly.stamps⟩
  | tamper files =>
    obtain rfl := Option.some.inj stepped
    exact ⟨job, orderly.distinct, orderly.apart, orderly.stamps⟩

/-! ### What is held -/

/-- The block is queued, and where the writer works on it its file is whole; or it is indexed with its file. -/
def Held (s : BlockStore) (hash : UInt64) (bytes : Bytes) : Prop :=
  ((hash, bytes) ∈ s.queue ∧
    match s.writer with
    | .renaming h _ => h = hash → readFile s.files (tmpOf hash) = some bytes
    | .committing h _ ok => h = hash → ok = true ∧ readFile s.files (pathOf hash) = some bytes
    | _ => True) ∨
  (hash ∈ s.index ∧ readFile s.files (pathOf hash) = some bytes)

/-- The bytes of the entries used before a stamp. -/
def olderBytes (index : Table UInt64 Entry) (stamp : Nat) : Nat :=
  index.total fun e => if e.stamp < stamp then e.bytes else 0

/-- The entry is the latest one, or the loop stops before it: what was used before it makes up for what is too much. -/
def Spared (s : BlockStore) (hash : UInt64) (e : Entry) : Prop :=
  (∀ h e', s.index.lookup h = some e' → h ≠ hash → e'.stamp < e.stamp) ∨ s.bytes ≤ s.budget + olderBytes s.index e.stamp

theorem readFile_erase (other : name ≠ pathOf hash) : readFile (files.erase (pathOf hash)) name = readFile files name := by
  rw [readFile, readFile, AList.lookup_erase_ne other]

theorem Spared.victim_ne {victim : Sigma fun _ : UInt64 => Entry} (spared : Spared s hash e)
    (held : s.index.lookup hash = some e) (full : s.budget < s.bytes ∧ 1 < s.index.entries.length)
    (oldest : s.index.least Entry.stamp = some victim) : victim.1 ≠ hash := by
  obtain ⟨listed, smallest⟩ := Table.least_spec oldest
  rintro rfl
  obtain rfl : victim.2 = e := Option.some.inj (listed.symm.trans held)
  have others := Table.length_erase held
  rcases spared with latest | room
  · have more : (s.index.erase victim.1).entries ≠ [] := List.ne_nil_of_length_pos (by omega)
    obtain ⟨⟨h, e'⟩, member⟩ := List.exists_mem_of_ne_nil _ more
    have found := Table.mem_iff.mp member
    rw [Table.lookup_erase_eq] at found
    split at found
    · cases found
    · rename_i other
      exact absurd (latest h e' found other) (Nat.not_lt.mpr (smallest h e' found))
  · have none : olderBytes s.index victim.2.stamp = 0 := by
      apply List.sum_eq_zero
      intro n member
      obtain ⟨⟨h, e'⟩, entry, rfl⟩ := List.mem_map.mp member
      exact if_neg (Nat.not_lt.mpr (smallest h e' (Table.mem_iff.mp entry)))
    rw [none] at room
    exact absurd full.1 (Nat.not_lt.mpr room)

theorem Spared.evict {victim : Sigma fun _ : UInt64 => Entry} (spared : Spared s hash e) (oldest : s.index.least Entry.stamp = some victim) : Spared (s.evictEntry victim.1 victim.2) hash e := by
  have listed := (Table.least_spec oldest).1
  rcases spared with latest | room
  · refine .inl fun h e' found other => latest h e' ?_ other
    rw [evictEntry, Table.lookup_erase_eq] at found
    split at found
    · cases found
    · exact found
  · refine .inr ?_
    have older := Table.total_erase (w := fun e' : Entry => if e'.stamp < e.stamp then e'.bytes else 0) listed
    change s.bytes - victim.2.bytes ≤ s.budget + olderBytes (s.index.erase victim.1) e.stamp
    unfold olderBytes at room ⊢
    rw [older] at room
    split at room
    · omega
    · omega

theorem evictLoop_spares (n : Nat) (held : s.index.lookup hash = some e) (spared : Spared s hash e) :
    (evictLoop n s).index.lookup hash = some e ∧
      readFile (evictLoop n s).files (pathOf hash) = readFile s.files (pathOf hash) := by
  induction n generalizing s with
  | zero => exact ⟨held, rfl⟩
  | succ n ih =>
    unfold evictLoop
    split
    · rename_i full
      split
      · exact ⟨held, rfl⟩
      · rename_i victim oldest
        have other := spared.victim_ne held full oldest
        have kept : (s.evictEntry victim.1 victim.2).index.lookup hash = some e := by
          rw [evictEntry, AList.lookup_erase_ne other.symm]
          exact held
        obtain ⟨indexed, file⟩ := ih kept (spared.evict oldest)
        exact ⟨indexed, file.trans (readFile_erase fun same => other (pathOf_injective same).symm)⟩
    · exact ⟨held, rfl⟩

/-- The budget is none, or leaves room for the key's block and the blocks used after it when the writer enters another. -/
def Roomy (hash : UInt64) (s : BlockStore) : Prop :=
  match s.writer, s.index.lookup hash with
  | .committing _ size true, some e => s.budget = 0 ∨ s.bytes + size ≤ s.budget + olderBytes s.index e.stamp
  | _, _ => True

instance (hash : UInt64) : DecidablePred (Roomy hash) := fun s =>
  show Decidable (match s.writer, s.index.lookup hash with
    | .committing _ size true, some e => s.budget = 0 ∨ s.bytes + size ≤ s.budget + olderBytes s.index e.stamp
    | _, _ => True) from
  match s.writer, s.index.lookup hash with
  | .committing _ _ true, some _ => inferInstanceAs (Decidable (_ ∨ _))
  | .committing _ _ true, none | .committing _ _ false, _ | .waiting, _ | .writing _ _, _ | .renaming _ _, _ | .exited, _ =>
    .isTrue trivial

/-- The writer's file operations succeed, nobody else touches the directory, and the budget does not call for the key's
block. -/
def Keeps (hash : UInt64) (s : BlockStore) : Act → Prop
  | .write ok _ => ok = true
  | .rename ok => ok = true
  | .commit => Roomy hash s
  | .tamper _ => False
  | _ => True

instance (hash : UInt64) (s : BlockStore) : DecidablePred (Keeps hash s)
  | .write ok _ | .rename ok => inferInstanceAs (Decidable (ok = true))
  | .commit => inferInstanceAs (Decidable (Roomy hash s))
  | .tamper _ => .isFalse id
  | .put _ _ | .get _ | .contains _ | .stop | .take => .isTrue trivial

theorem enter_held {size : Nat} (orderly : Orderly s)
    (file : readFile s.files (pathOf hash) = some bytes) :
    hash ∈ (evictToBudget (s.enter hash size)).index ∧
      readFile (evictToBudget (s.enter hash size)).files (pathOf hash) = some bytes := by
  have held : (s.enter hash size).index.lookup hash = some ⟨size, s.stamp + 1⟩ := AList.lookup_insert _
  have latest : Spared (s.enter hash size) hash ⟨size, s.stamp + 1⟩ := by
    refine .inl fun h e' found other => ?_
    rw [enter, AList.lookup_insert_ne other] at found
    exact Nat.lt_succ_of_le (orderly.stamps h e' found)
  unfold evictToBudget
  split
  · exact ⟨AList.lookup_isSome.mp (by rw [held]; rfl), file⟩
  · obtain ⟨indexed, kept⟩ := evictLoop_spares _ held latest
    exact ⟨AList.lookup_isSome.mp (by rw [indexed]; rfl), kept.trans file⟩

/-- Another block is entered. -/
theorem enter_spares {size : Nat} {other : UInt64} (fresh : other ∉ s.index) (committing : s.writer = .committing other size true)
    (roomy : Roomy hash s) (indexed : hash ∈ s.index) (file : readFile s.files (pathOf hash) = some bytes) :
    hash ∈ (evictToBudget (s.enter other size)).index ∧
      readFile (evictToBudget (s.enter other size)).files (pathOf hash) = some bytes := by
  obtain ⟨e, held⟩ := Option.isSome_iff_exists.mp (AList.lookup_isSome.mpr indexed)
  have differ : hash ≠ other := fun same => fresh (same ▸ indexed)
  have held' : (s.enter other size).index.lookup hash = some e := by
    rw [enter, AList.lookup_insert_ne differ]
    exact held
  unfold evictToBudget
  split
  · exact ⟨AList.lookup_isSome.mp (by rw [held']; rfl), file⟩
  · rename_i bounded
    unfold Roomy at roomy
    rw [committing, held] at roomy
    have room : s.bytes + size ≤ s.budget + olderBytes s.index e.stamp := roomy.resolve_left bounded
    have spared : Spared (s.enter other size) hash e := by
      refine .inr (room.trans (Nat.add_le_add_left ?_ _))
      change olderBytes s.index e.stamp ≤ olderBytes (s.index.insert other ⟨size, s.stamp + 1⟩) e.stamp
      rw [olderBytes, olderBytes, Table.total_insert, Table.erase_of_notMem fresh]
      exact Nat.le_add_left _ _
    obtain ⟨indexed', kept⟩ := evictLoop_spares _ held' spared
    exact ⟨AList.lookup_isSome.mp (by rw [indexed']; rfl), kept.trans file⟩

/-- The queue holds one block under a key. -/
theorem Orderly.front (orderly : Orderly s) {front : Bytes} {rest : List (UInt64 × Bytes)}
    (queued : s.queue = (hash, front) :: rest) (member : (hash, bytes) ∈ s.queue) : front = bytes := by
  have distinct := orderly.distinct
  rw [queued, List.map_cons, List.nodup_cons] at distinct
  rw [queued] at member
  rcases List.mem_cons.mp member with same | later
  · exact (congrArg Prod.snd same).symm
  · exact absurd (List.mem_map_of_mem (f := Prod.fst) later) distinct.1

theorem put_held {hash' : UInt64} {bytes' : Bytes} (held : Held s hash bytes) : Held (s.put hash' bytes') hash bytes := by
  unfold put
  split
  · exact held
  · exact held.imp_left fun ⟨queued, file⟩ => ⟨List.mem_append_left _ queued, file⟩

theorem step_held {a : Act} (orderly : Orderly s) (held : Held s hash bytes) (keeps : Keeps hash s a)
    (stepped : step s a = some t) : Held t hash bytes := by
  have job := orderly.job
  have indexed_apart : ∀ {front rest} {other : UInt64}, hash ∈ s.index → s.queue = (other, front) :: rest → hash ≠ other := by
    rintro front rest other indexed queued rfl
    exact orderly.apart hash (by rw [queued]; exact List.mem_cons_self) indexed
  cases a with
  | put hash' bytes' =>
    obtain rfl := Option.some.inj stepped
    exact put_held held
  | get hash' =>
    obtain rfl := Option.some.inj stepped
    obtain ⟨files, queue, writer⟩ := get_frame s hash'
    unfold Held at held ⊢
    rw [files, queue, writer, mem_get]
    exact held
  | contains hash' =>
    obtain rfl := Option.some.inj stepped
    exact held
  | stop =>
    obtain rfl := Option.some.inj stepped
    exact held
  | take =>
    obtain ⟨_, ⟨_, _, _, _, rfl⟩ | ⟨_, _, rfl⟩⟩ := take_cases stepped
    · exact held.imp_left fun ⟨queued, _⟩ => ⟨queued, trivial⟩
    · exact held.imp_left fun ⟨queued, _⟩ => ⟨queued, trivial⟩
  | write ok now =>
    obtain rfl : ok = true := keeps
    obtain ⟨other, front, writing, ⟨_, rfl⟩ | ⟨failed, _⟩⟩ := write_cases stepped
    · rw [writing] at job
      obtain ⟨rest, queue⟩ := job
      rcases held with ⟨queued, _⟩ | ⟨indexed, file⟩
      · refine .inl ⟨queued, ?_⟩
        rintro rfl
        rw [readFile, AList.lookup_insert, ← orderly.front queue queued]
        rfl
      · refine .inr ⟨indexed, ?_⟩
        rw [readFile, AList.lookup_insert_ne (tmpOf_ne_pathOf _ _).symm]
        exact file
    · cases failed
  | rename ok =>
    obtain rfl : ok = true := keeps
    obtain ⟨other, front, atRename, renamed⟩ := rename_cases stepped
    rw [atRename] at job
    obtain ⟨rest, queue⟩ := job
    have untouched : readFile (s.files.erase (tmpOf other)) (pathOf hash) = readFile s.files (pathOf hash) := by
      rw [readFile, readFile, AList.lookup_erase_ne (tmpOf_ne_pathOf _ _).symm]
    unfold Held at held
    rw [atRename] at held
    rcases held with ⟨queued, file⟩ | ⟨indexed, file⟩
    · refine .inl ?_
      rcases renamed with ⟨f, _, found, rfl⟩ | ⟨failed | missing, rfl⟩
      · refine ⟨queued, ?_⟩
        rintro rfl
        have whole := file rfl
        rw [readFile, found] at whole
        refine ⟨rfl, ?_⟩
        rw [readFile, AList.lookup_insert]
        exact whole
      · cases failed
      · refine ⟨queued, ?_⟩
        rintro rfl
        have whole := file rfl
        rw [readFile, AList.lookup_eq_none.mpr missing] at whole
        cases whole
    · have differ := indexed_apart indexed queue
      refine .inr ?_
      rcases renamed with ⟨f, _, _, rfl⟩ | ⟨_, rfl⟩
      · refine ⟨indexed, ?_⟩
        rw [readFile, AList.lookup_insert_ne fun same => differ (pathOf_injective same)]
        exact untouched.trans file
      · exact ⟨indexed, untouched.trans file⟩
  | commit =>
    obtain ⟨other, size, ⟨committing, rfl⟩ | ⟨committing, rfl⟩⟩ := commit_cases stepped
    · rw [committing] at job
      obtain ⟨front, rest, queue, _⟩ := job
      unfold Held at held
      rw [committing] at held
      rcases held with ⟨queued, file⟩ | ⟨indexed, file⟩
      · by_cases own : other = hash
        · subst own
          exact .inr (enter_held orderly (file rfl).2)
        · refine .inl ⟨?_, trivial⟩
          change (hash, bytes) ∈ (evictToBudget (s.enter other size)).queue.tail
          rw [(evictToBudget_shrinks _).queue]
          change (hash, bytes) ∈ s.queue.tail
          rw [queue] at queued ⊢
          exact (List.mem_cons.mp queued).resolve_left fun same => own (congrArg Prod.fst same).symm
      · have fresh : other ∉ s.index := orderly.apart other (by rw [queue]; exact List.mem_cons_self)
        exact .inr (enter_spares fresh committing keeps indexed file)
    · rw [committing] at job
      obtain ⟨front, rest, queue, _⟩ := job
      unfold Held at held
      rw [committing] at held
      refine held.imp_left fun ⟨queued, file⟩ => ⟨?_, trivial⟩
      change (hash, bytes) ∈ s.queue.tail
      rw [queue] at queued ⊢
      refine (List.mem_cons.mp queued).resolve_left fun same => ?_
      have ok := (file (congrArg Prod.fst same).symm).1
      cases ok
  | tamper files => exact keeps.elim

/-- Once the queue is empty the block is read back from its file. -/
theorem Held.get (held : Held s hash bytes) (drained : s.queue = []) : (s.get hash).1 = some bytes := by
  rcases held with ⟨queued, _⟩ | ⟨indexed, file⟩
  · rw [drained] at queued
    cases queued
  · obtain ⟨e, found⟩ := Option.isSome_iff_exists.mp (AList.lookup_isSome.mpr indexed)
    rw [BlockStore.get, found]
    exact file

end BlockStore

end Mlxforge
