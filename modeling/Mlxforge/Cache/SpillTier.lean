import Mlxforge.Cache.BlockFile
import Mlxforge.Cache.BlockPool
import Mlxforge.Cache.StoreHolds

/-!
The worker's block pool over the disk tier: the evict hook spills what the store does not have, and a pool miss revives a
block from its file. A block whose file went bad is spilled again only where the store no longer lists its key.
-/

namespace Mlxforge

open Transition (Reachable Free)

variable {V : Type}

/-- `hooked` counts the evictions whose hook call is over, and `absent` says that the call under way has found that the
store does not have the block. -/
structure SpillTier (V : Type) where
  pool : BlockPool V
  store : BlockStore
  hooked : Nat := 0
  absent : Bool := false

namespace SpillTier

/-- What the worker does with its pool, the two halves of the evict hook, and the steps of the store's own thread. -/
inductive Act (V : Type) where
  | insert (hash : UInt64) (block : KVBlock V)
  | touch (hash : UInt64)
  | miss (hash : UInt64)
  | consult
  | spill
  | store (a : BlockStore.Act)

/-- The eviction whose hook call is under way. -/
def hookCall (s : SpillTier V) : Option (UInt64 × KVBlock V) := s.pool.evicted[s.hooked]?

/-- Not a call on the store. -/
def Own : BlockStore.Act → Prop
  | .put _ _ | .get _ | .contains _ => False
  | _ => True

instance : DecidablePred Own
  | .put _ _ | .get _ | .contains _ => .isFalse id
  | .stop | .take | .write _ _ | .rename _ | .commit | .tamper _ => .isTrue trivial

/-- `buffers` and `revive` take a block's arrays to their contiguous buffers and back. -/
structure Env (V : Type) where
  salt : UInt64
  buffers : KVBlock V → StoredBlock
  revive : StoredBlock → KVBlock V

variable (env : Env V)

def missResult (s : SpillTier V) (hash : UInt64) : Option (KVBlock V) :=
  match (s.store.get hash).1 with
  | none => none
  | some bytes => (deserializeBlock bytes env.salt).map env.revive

def step (s : SpillTier V) : Act V → Option (SpillTier V)
  | .insert hash block => if s.hookCall.isNone then some { s with pool := s.pool.insert hash block } else none
  | .touch hash => if s.hookCall.isNone then some { s with pool := (s.pool.get hash).2 } else none
  | .miss hash => if s.hookCall.isNone then some { s with store := (s.store.get hash).2 } else none
  | .consult =>
    match s.hookCall, s.absent with
    | some (hash, _), false =>
      if s.store.contains hash then some { s with hooked := s.hooked + 1 } else some { s with absent := true }
    | _, _ => none
  | .spill =>
    match s.hookCall, s.absent with
    | some (hash, block), true => some { s with
        store := s.store.put hash (serializeBlock (env.buffers block) env.salt)
        absent := false
        hooked := s.hooked + 1 }
    | _, _ => none
  | .store a => if Own a then (s.store.step a).map fun store => { s with store } else none

/-- The tier as it starts over what a directory holds. -/
def opened (dir : Directory) (spillBytes poolBytes : Nat) : SpillTier V :=
  { pool := { budget := poolBytes }, store := .new dir spillBytes }

/-! ### Runs -/

variable {env} {s t : SpillTier V} {hash : UInt64} {block : KVBlock V}

/-- Between the two halves of the hook the store does not come to have the block. -/
structure Orderly (s : SpillTier V) : Prop where
  store : s.store.Orderly
  absent : s.absent = true → ∃ hash block, s.hookCall = some (hash, block) ∧ s.store.contains hash = false

theorem not_contains_step {store store' : BlockStore} {a : BlockStore.Act} (orderly : store.Orderly)
    (absent : store.contains hash = false) (own : Own a) (stepped : store.step a = some store') :
    store'.contains hash = false := by
  rw [BlockStore.not_contains] at absent ⊢
  obtain ⟨notIndexed, notQueued⟩ := absent
  cases a with
  | put _ _ => exact own.elim
  | get _ => exact own.elim
  | contains _ => exact own.elim
  | stop =>
    obtain rfl := Option.some.inj stepped
    exact ⟨notIndexed, notQueued⟩
  | take =>
    obtain ⟨_, ⟨_, _, _, _, rfl⟩ | ⟨_, _, rfl⟩⟩ := BlockStore.take_cases stepped
    · exact ⟨notIndexed, notQueued⟩
    · exact ⟨notIndexed, notQueued⟩
  | write ok now =>
    obtain ⟨_, _, _, ⟨_, rfl⟩ | ⟨_, rfl⟩⟩ := BlockStore.write_cases stepped
    · exact ⟨notIndexed, notQueued⟩
    · exact ⟨notIndexed, notQueued⟩
  | rename ok =>
    obtain ⟨_, _, _, ⟨_, _, _, rfl⟩ | ⟨_, rfl⟩⟩ := BlockStore.rename_cases stepped
    · exact ⟨notIndexed, notQueued⟩
    · exact ⟨notIndexed, notQueued⟩
  | commit =>
    have notLeft : hash ∉ store.queue.tail.map Prod.fst := fun member =>
      notQueued (((List.tail_sublist _).map Prod.fst).subset member)
    obtain ⟨other, size, ⟨committing, rfl⟩ | ⟨_, rfl⟩⟩ := BlockStore.commit_cases stepped
    · have job := orderly.job
      rw [committing] at job
      obtain ⟨front, rest, queue, _⟩ := job
      have shrinks := BlockStore.evictToBudget_shrinks (store.enter other size)
      refine ⟨fun indexed => ?_, ?_⟩
      · rcases (AList.mem_insert _).mp (shrinks.mem indexed) with rfl | old
        · exact notQueued (by rw [queue]; exact List.mem_cons_self)
        · exact notIndexed old
      · change hash ∉ (BlockStore.evictToBudget (store.enter other size)).queue.tail.map Prod.fst
        rw [shrinks.queue]
        exact notLeft
    · exact ⟨notIndexed, notLeft⟩
  | tamper files =>
    obtain rfl := Option.some.inj stepped
    exact ⟨notIndexed, notQueued⟩

theorem puts_of_own {store : BlockStore} {a : BlockStore.Act} (own : Own a) : store.Puts a := by
  cases a with
  | put _ _ => exact own.elim
  | _ => trivial

theorem get_orderly {store : BlockStore} (orderly : store.Orderly) (hash : UInt64) : (store.get hash).2.Orderly :=
  BlockStore.step_orderly (a := .get hash) orderly trivial rfl

theorem step_orderly {a : Act V} (orderly : Orderly s) (stepped : step env s a = some t) : Orderly t := by
  have idle : s.hookCall.isNone = true → s.absent = true → False := by
    intro none absent
    obtain ⟨_, _, called, _⟩ := orderly.absent absent
    rw [called] at none
    cases none
  cases a with
  | insert hash block =>
    obtain ⟨none, next⟩ := Option.ite_none_right_eq_some.mp stepped
    obtain rfl := Option.some.inj next
    exact ⟨orderly.store, fun absent => (idle none absent).elim⟩
  | touch hash =>
    obtain ⟨none, next⟩ := Option.ite_none_right_eq_some.mp stepped
    obtain rfl := Option.some.inj next
    exact ⟨orderly.store, fun absent => (idle none absent).elim⟩
  | miss hash =>
    obtain ⟨none, next⟩ := Option.ite_none_right_eq_some.mp stepped
    obtain rfl := Option.some.inj next
    exact ⟨get_orderly orderly.store hash, fun absent => (idle none absent).elim⟩
  | consult =>
    simp only [step] at stepped
    split at stepped
    · rename_i called found
      split at stepped
      · obtain rfl := Option.some.inj stepped
        exact ⟨orderly.store, fun absent => by rw [found] at absent; cases absent⟩
      · rename_i missing
        obtain rfl := Option.some.inj stepped
        exact ⟨orderly.store, fun _ => ⟨_, _, called, Bool.eq_false_iff.mpr missing⟩⟩
    · cases stepped
  | spill =>
    simp only [step] at stepped
    split at stepped
    · rename_i called absent
      obtain rfl := Option.some.inj stepped
      obtain ⟨_, _, called', missing⟩ := orderly.absent absent
      rw [called] at called'
      obtain ⟨rfl, rfl⟩ := Prod.mk.inj (Option.some.inj called')
      exact ⟨BlockStore.put_orderly orderly.store missing _, nofun⟩
    · cases stepped
  | store a =>
    obtain ⟨own, next⟩ := Option.ite_none_right_eq_some.mp stepped
    obtain ⟨store, moved, rfl⟩ := Option.map_eq_some_iff.mp next
    refine ⟨BlockStore.step_orderly orderly.store (puts_of_own own) moved, fun absent => ?_⟩
    obtain ⟨hash, block, called, missing⟩ := orderly.absent absent
    exact ⟨hash, block, called, not_contains_step orderly.store missing own moved⟩

theorem opened_orderly (dir : Directory) (spillBytes poolBytes : Nat) : Orderly (opened dir spillBytes poolBytes : SpillTier V) := by
  have scan : ∀ (found : List BlockStore.Found) (store : BlockStore), store.Orderly → store.writer = .waiting → store.queue = [] →
      (found.foldl BlockStore.indexFound store).Orderly := by
    intro found
    induction found with
    | nil => exact fun _ orderly _ _ => orderly
    | cons f found ih =>
      intro store orderly waiting empty
      refine ih _ ⟨?_, ?_, ?_, ?_⟩ waiting empty
      · simp only [BlockStore.indexFound, waiting]
      · exact orderly.distinct
      · intro hash member
        change hash ∈ store.queue.map Prod.fst at member
        rw [empty] at member
        cases member
      · intro hash e held
        exact BlockStore.lookup_enter orderly.stamps hash e held
  refine ⟨scan _ _ ⟨trivial, .nil, fun _ member => ?_, fun _ _ held => ?_⟩ rfl rfl, nofun⟩
  · cases member
  · cases held

/-- From the hook call on: the writer's file operations succeed, nobody else touches the directory, and the disk budget
does not call for the key's block. -/
def Keeps (hash : UInt64) (s : SpillTier V) : Act V → Prop
  | .store a => s.store.Keeps hash a
  | _ => True

instance (hash : UInt64) (s : SpillTier V) : DecidablePred (Keeps hash s)
  | .store a => inferInstanceAs (Decidable (s.store.Keeps hash a))
  | .insert _ _ | .touch _ | .miss _ | .consult | .spill => .isTrue trivial

/-- Up to the put the store has nothing under the key, and from then on the block. -/
structure Spills (env : Env V) (k : Nat) (hash : UInt64) (block : KVBlock V) (s : SpillTier V) : Prop where
  orderly : Orderly s
  phase : (s.hooked = k ∧ s.hookCall = some (hash, block) ∧ s.store.contains hash = false) ∨
    (k < s.hooked ∧ s.store.Held hash (serializeBlock (env.buffers block) env.salt))

theorem step_spills {k : Nat} {a : Act V} (spills : Spills env k hash block s) (keeps : Keeps hash s a)
    (stepped : step env s a = some t) : Spills env k hash block t := by
  refine ⟨step_orderly spills.orderly stepped, ?_⟩
  have orderly := spills.orderly.store
  -- the pool waits for the hook call
  have waits : s.hookCall.isNone = true → k < s.hooked ∧ s.store.Held hash (serializeBlock (env.buffers block) env.salt) := by
    intro none
    refine spills.phase.resolve_left fun ⟨_, called, _⟩ => ?_
    rw [called] at none
    cases none
  cases a with
  | insert hash' block' =>
    obtain ⟨none, next⟩ := Option.ite_none_right_eq_some.mp stepped
    obtain rfl := Option.some.inj next
    exact .inr (waits none)
  | touch hash' =>
    obtain ⟨none, next⟩ := Option.ite_none_right_eq_some.mp stepped
    obtain rfl := Option.some.inj next
    exact .inr (waits none)
  | miss hash' =>
    obtain ⟨none, next⟩ := Option.ite_none_right_eq_some.mp stepped
    obtain rfl := Option.some.inj next
    obtain ⟨later, held⟩ := waits none
    exact .inr ⟨later, BlockStore.step_held (a := .get hash') orderly held trivial rfl⟩
  | consult =>
    simp only [step] at stepped
    split at stepped
    · rename_i called found
      split at stepped
      · rename_i listed
        obtain rfl := Option.some.inj stepped
        rcases spills.phase with ⟨_, called', missing⟩ | ⟨later, held⟩
        · rw [called] at called'
          obtain ⟨rfl, _⟩ := Prod.mk.inj (Option.some.inj called')
          rw [missing] at listed
          cases listed
        · exact .inr ⟨Nat.lt_succ_of_lt later, held⟩
      · obtain rfl := Option.some.inj stepped
        exact spills.phase
    · cases stepped
  | spill =>
    simp only [step] at stepped
    split at stepped
    · rename_i called absent
      obtain rfl := Option.some.inj stepped
      rcases spills.phase with ⟨here, called', missing⟩ | ⟨later, held⟩
      · rw [called] at called'
        obtain ⟨rfl, rfl⟩ := Prod.mk.inj (Option.some.inj called')
        refine .inr ⟨Nat.lt_succ_of_le here.ge, .inl ?_⟩
        obtain ⟨notIndexed, notQueued⟩ := BlockStore.not_contains.mp missing
        have job := orderly.job
        rw [BlockStore.put, if_neg notIndexed]
        refine ⟨List.mem_append_right _ (List.mem_singleton_self _), ?_⟩
        dsimp only
        split
        · rename_i h bytes atRename
          rw [atRename] at job
          obtain ⟨rest, queue⟩ := job
          rintro rfl
          exact absurd (by rw [queue]; exact List.mem_cons_self) notQueued
        · rename_i h size ok committing
          rw [committing] at job
          obtain ⟨front, rest, queue, _⟩ := job
          rintro rfl
          exact absurd (by rw [queue]; exact List.mem_cons_self) notQueued
        · trivial
      · exact .inr ⟨Nat.lt_succ_of_lt later, BlockStore.put_held held⟩
    · cases stepped
  | store a =>
    obtain ⟨own, next⟩ := Option.ite_none_right_eq_some.mp stepped
    obtain ⟨store, moved, rfl⟩ := Option.map_eq_some_iff.mp next
    rcases spills.phase with ⟨here, called, missing⟩ | ⟨later, held⟩
    · exact .inl ⟨here, called, not_contains_step orderly missing own moved⟩
    · exact .inr ⟨later, BlockStore.step_held orderly held keeps moved⟩

/-- Whatever became of the file under a key: where an eviction from the pool finds the key neither indexed nor queued in
the store, and from then on the writer's file operations succeed, nobody else touches the directory and the disk budget
does not call for the key's block, the block is read back once the hook has run and the queue is empty. -/
theorem heals {dir : Directory} {spillBytes poolBytes : Nat} (run : Reachable (step env) Free (opened dir spillBytes poolBytes) s)
    (evicted : s.hookCall = some (hash, block)) (valid : (env.buffers block).Uniform)
    (absent : s.store.contains hash = false) (after : Reachable (step env) (Keeps hash) s t) (spilled : s.hooked < t.hooked)
    (drained : t.store.queue = []) :
    missResult env t hash = some (env.revive { env.buffers block with bytes := (env.buffers block).blockBytes }) := by
  have orderly : Orderly s := run.invariant (opened_orderly dir spillBytes poolBytes) fun orderly _ stepped =>
    step_orderly orderly stepped
  have spills : Spills env s.hooked hash block t :=
    after.invariant ⟨orderly, .inl ⟨rfl, evicted, absent⟩⟩ fun spills keeps stepped => step_spills spills keeps stepped
  have held := (spills.phase.resolve_left fun ⟨here, _⟩ => absurd here spilled.ne').2
  rw [missResult, held.get drained]
  dsimp only
  rw [valid.reads]
  rfl

/-- Blocks of one tiny array each. -/
def tinyEnv : Env Unit := ⟨7, fun _ => .tiny, fun b => { k := [], v := [], bytes := b.bytes }⟩

def tinyBlock : KVBlock Unit := { k := [], v := [], bytes := 4 }

theorem tiny_evicted {s : SpillTier Unit} (called : s.hookCall.map Prod.fst = some 1) :
    ∃ block, s.hookCall = some (1, block) := by
  obtain ⟨⟨_, block⟩, called, rfl⟩ := Option.map_eq_some_iff.mp called
  exact ⟨block, called⟩

/-- The first block is evicted. -/
def evictFirst : List (Act Unit) := [.insert 1 tinyBlock, .insert 2 tinyBlock]

/-- A pool for one block: the first one is evicted and filed, and read back. -/
theorem heals_tiny : ∃ s t block, Reachable (step tinyEnv) Free (opened ∅ 0 4) s ∧ s.hookCall = some (1, block) ∧
    Reachable (step tinyEnv) (Keeps 1) s t ∧ missResult tinyEnv t 1 = some tinyBlock := by
  have runs : ((evictFirst.foldlM (step tinyEnv) (opened ∅ 0 4)).bind fun s =>
      ([.consult, .spill, .store .take, .store (.write true 0), .store (.rename true), .store .commit].foldlM
        (fun s a => if Keeps 1 s a then step tinyEnv s a else none) s).map fun t =>
          decide (s.hookCall.map Prod.fst = some 1 ∧ s.store.contains 1 = false ∧ s.hooked < t.hooked ∧ t.store.queue = [])) =
        some true := by
    rw [opened, BlockStore.new_empty]
    decide +kernel
  obtain ⟨s, ran, runs⟩ := Option.bind_eq_some_iff.mp runs
  obtain ⟨t, ran', columns⟩ := Option.map_eq_some_iff.mp runs
  obtain ⟨called, absent, later, drained⟩ := of_decide_eq_true columns
  obtain ⟨block, called⟩ := tiny_evicted called
  have reached := Reachable.of_foldlM ran
  have after := Reachable.of_allowed ran'
  exact ⟨s, t, block, reached, called, after, heals reached called StoredBlock.tiny_uniform absent after later drained⟩

/-- The key's file holds one byte. -/
def tornFile : Directory := AList.singleton (pathOf 1) { mtime := 0, content := [0x00] }

theorem new_torn : BlockStore.new tornFile 0 =
    { budget := 0, files := tornFile, index := AList.singleton 1 ⟨1, 1⟩, bytes := 1, stamp := 1 } := by
  have found : BlockStore.findBlocks tornFile = [⟨0, 1, 1⟩] := by
    unfold BlockStore.findBlocks
    have counted : BlockStore.countedAs (pathOf 1) { mtime := 0, content := [0x00] } = some 1 := by decide
    change [(⟨pathOf 1, _⟩ : Sigma fun _ => DirEntry)].filterMap _ = _
    rw [List.filterMap_cons, counted]
    rfl
  rw [BlockStore.new, found, List.mergeSort_singleton]
  rfl

/-- The index lists the key of a file that cannot be read, and the evicted block is never written. -/
theorem torn_stays : ∃ s₁ s₂ s₃ block, Reachable (step tinyEnv) Free (opened tornFile 0 4) s₁ ∧
    missResult tinyEnv s₁ 1 = none ∧ Reachable (step tinyEnv) Free s₁ s₂ ∧
    s₂.hookCall = some (1, block) ∧ (tinyEnv.buffers block).Uniform ∧
    Reachable (step tinyEnv) (Keeps 1) s₂ s₃ ∧ s₂.hooked < s₃.hooked ∧ s₃.store.queue = [] ∧
    missResult tinyEnv s₃ 1 = none := by
  have runs : (([.miss 1].foldlM (step tinyEnv) (opened tornFile 0 4)).bind fun s₁ =>
      (evictFirst.foldlM (step tinyEnv) s₁).bind fun s₂ =>
        ([.consult].foldlM (fun s a => if Keeps 1 s a then step tinyEnv s a else none) s₂).map fun s₃ =>
          decide ((missResult tinyEnv s₁ 1).isNone = true ∧ s₂.hookCall.map Prod.fst = some 1 ∧ s₂.hooked < s₃.hooked ∧
            s₃.store.queue = [] ∧ (missResult tinyEnv s₃ 1).isNone = true)) = some true := by
    rw [opened, new_torn]
    decide +kernel
  obtain ⟨s₁, ran₁, runs⟩ := Option.bind_eq_some_iff.mp runs
  obtain ⟨s₂, ran₂, runs⟩ := Option.bind_eq_some_iff.mp runs
  obtain ⟨s₃, ran₃, columns⟩ := Option.map_eq_some_iff.mp runs
  obtain ⟨failed, called, later, drained, still⟩ := of_decide_eq_true columns
  obtain ⟨block, called⟩ := tiny_evicted called
  exact ⟨s₁, s₂, s₃, block, Reachable.of_foldlM ran₁, Option.isNone_iff_eq_none.mp failed, Reachable.of_foldlM ran₂, called,
    StoredBlock.tiny_uniform, Reachable.of_allowed ran₃, later, drained, Option.isNone_iff_eq_none.mp still⟩

end SpillTier

end Mlxforge
