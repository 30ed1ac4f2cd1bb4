import Mlxforge.Cache.BlockName
import Mlxforge.Lib.Table
import Mlxforge.Lib.Transition

/-!
The disk tier: an index over a directory of block files. Callers of any thread queue blocks, look them up and read them
back; the writer thread writes the queue's front to a temporary file, renames it and enters it in the index, and deletes
the least recently used files to keep within the budget.
-/

namespace Mlxforge

structure DirEntry where
  regular : Bool := true
  mtime : Int
  content : Bytes

/-- The spill directory. -/
abbrev Directory := Table FileName DirEntry

namespace BlockStore

structure Entry where
  bytes : Nat := 0
  stamp : Nat := 0

/-- Where the writer thread is. It keeps a copy of the job it took; the job stays at the front of the queue. -/
inductive Writer where
  | waiting
  | writing (hash : UInt64) (bytes : Bytes)
  | renaming (hash : UInt64) (bytes : Bytes)
  | committing (hash : UInt64) (size : Nat) (ok : Bool)
  | exited

end BlockStore

open BlockStore in
/-- `evictions` records what was evicted, each with the size of the block files that were on disk. -/
structure BlockStore where
  budget : Nat
  files : Directory
  index : Table UInt64 Entry := ∅
  bytes : Nat := 0
  stamp : Nat := 0
  queue : List (UInt64 × Bytes) := []
  stop : Bool := false
  writer : Writer := .waiting
  evictions : List (UInt64 × Nat) := []

namespace BlockStore

/-! ### The recovery scan -/

structure Found where
  mtime : Int
  hash : UInt64
  bytes : Nat

/-- The key under which the scan counts a file, if it counts it. -/
def countedAs (name : FileName) (f : DirEntry) : Option UInt64 :=
  if f.regular ∧ (splitName name).2 = kvb then stoull (splitName name).1 else none

def findBlocks (dir : Directory) : List Found :=
  dir.entries.filterMap fun e => (countedAs e.1 e.2).map fun hash => ⟨e.2.mtime, hash, e.2.content.length⟩

def indexFound (s : BlockStore) (f : Found) : BlockStore :=
  { s with index := s.index.insert f.hash ⟨f.bytes, s.stamp + 1⟩, stamp := s.stamp + 1, bytes := s.bytes + f.bytes }

/-- The constructor, over what the directory holds. -/
def new (dir : Directory) (budget : Nat) : BlockStore :=
  ((findBlocks dir).mergeSort fun a b => a.mtime ≤ b.mtime).foldl indexFound { budget, files := dir }

/-! ### Calls -/

def put (s : BlockStore) (hash : UInt64) (bytes : Bytes) : BlockStore :=
  if hash ∈ s.index then s else { s with queue := s.queue ++ [(hash, bytes)] }

def readFile (files : Directory) (name : FileName) : Option Bytes :=
  match files.lookup name with
  | none => none
  | some f => if f.regular then some f.content else none

/-- Under the lock a hit is stamped; the file is read after the lock is released. -/
def get (s : BlockStore) (hash : UInt64) : Option Bytes × BlockStore :=
  match s.index.lookup hash with
  | none => ((s.queue.find? (·.1 == hash)).map Prod.snd, s)
  | some e =>
    (readFile s.files (pathOf hash),
      { s with index := s.index.insert hash { e with stamp := s.stamp + 1 }, stamp := s.stamp + 1 })

def contains (s : BlockStore) (hash : UInt64) : Bool := hash ∈ s.index ∨ hash ∈ s.queue.map Prod.fst

/-! ### The writer -/

def onDisk (files : Directory) : Nat :=
  (files.entries.map fun e => if (splitName e.1).2 = kvb then e.2.content.length else 0).sum

def evictEntry (s : BlockStore) (victim : UInt64) (e : Entry) : BlockStore :=
  { s with
    files := s.files.erase (pathOf victim)
    bytes := s.bytes - e.bytes
    index := s.index.erase victim
    evictions := s.evictions ++ [(victim, onDisk s.files)] }

/-- `n` turns of the eviction loop at most. -/
def evictLoop : (n : Nat) → BlockStore → BlockStore
  | 0, s => s
  | n + 1, s =>
    if s.budget < s.bytes ∧ 1 < s.index.entries.length then
      match s.index.least Entry.stamp with
      | none => s
      | some victim => evictLoop n (s.evictEntry victim.1 victim.2)
    else s

/-- `evict_to_budget_locked`. -/
def evictToBudget (s : BlockStore) : BlockStore :=
  if s.budget = 0 then s else evictLoop s.index.entries.length s

/-- The job's block is entered in the index. -/
def enter (s : BlockStore) (hash : UInt64) (size : Nat) : BlockStore :=
  { s with index := s.index.insert hash ⟨size, s.stamp + 1⟩, stamp := s.stamp + 1, bytes := s.bytes + size }

/-- A call of some thread, a step of the writer, or something else done to the directory. -/
inductive Act where
  | put (hash : UInt64) (bytes : Bytes)
  | get (hash : UInt64)
  | contains (hash : UInt64)
  | stop
  | take
  | write (ok : Bool) (now : Int)
  | rename (ok : Bool)
  | commit
  | tamper (files : Directory)

def step (s : BlockStore) : Act → Option BlockStore
  | .put hash bytes => some (s.put hash bytes)
  | .get hash => some (s.get hash).2
  | .contains _ => some s
  | .stop => some { s with stop := true }
  | .take =>
    match s.writer, s.queue with
    | .waiting, (hash, bytes) :: _ => some { s with writer := .writing hash bytes }
    | .waiting, [] => if s.stop then some { s with writer := .exited } else none
    | _, _ => none
  | .write ok now =>
    match s.writer with
    | .writing hash bytes =>
      -- what a failed write leaves is removed before the job is dropped
      some (if ok then
        { s with files := s.files.insert (tmpOf hash) { mtime := now, content := bytes }, writer := .renaming hash bytes }
      else { s with files := s.files.erase (tmpOf hash), writer := .committing hash bytes.length false })
    | _ => none
  | .rename ok =>
    match s.writer with
    | .renaming hash bytes =>
      match s.files.lookup (tmpOf hash), ok with
      | some f, true => some { s with
          files := (s.files.erase (tmpOf hash)).insert (pathOf hash) f
          writer := .committing hash bytes.length true }
      | _, _ => some { s with files := s.files.erase (tmpOf hash), writer := .committing hash bytes.length false }
    | _ => none
  | .commit =>
    match s.writer with
    | .committing hash size ok =>
      let s := if ok then evictToBudget (s.enter hash size) else s
      some { s with queue := s.queue.tail, writer := .waiting }
    | _ => none
  | .tamper files => some { s with files }

theorem new_empty (budget : Nat) : new ∅ budget = { budget, files := ∅ } := by
  unfold new findBlocks
  rw [AList.empty_entries, List.filterMap_nil, List.mergeSort_nil]
  rfl

/-! ### What the writer can do -/

variable {s t : BlockStore} {ok : Bool} {now : Int}

theorem take_cases (stepped : s.step .take = some t) :
    s.writer = .waiting ∧
      ((∃ hash bytes rest, s.queue = (hash, bytes) :: rest ∧ t = { s with writer := .writing hash bytes }) ∨
        s.queue = [] ∧ s.stop = true ∧ t = { s with writer := .exited }) := by
  simp only [step] at stepped
  split at stepped
  · rename_i waiting queued
    obtain rfl := Option.some.inj stepped
    exact ⟨waiting, .inl ⟨_, _, _, queued, rfl⟩⟩
  · rename_i waiting queued
    split at stepped
    · rename_i stopped
      obtain rfl := Option.some.inj stepped
      exact ⟨waiting, .inr ⟨queued, stopped, rfl⟩⟩
    · cases stepped
  · cases stepped

theorem write_cases (stepped : s.step (.write ok now) = some t) :
    ∃ hash bytes, s.writer = .writing hash bytes ∧
      (ok = true ∧ t = { s with
          files := s.files.insert (tmpOf hash) { mtime := now, content := bytes }, writer := .renaming hash bytes } ∨
        ok = false ∧ t = { s with
          files := s.files.erase (tmpOf hash), writer := .committing hash bytes.length false }) := by
  simp only [step] at stepped
  split at stepped
  · rename_i hash bytes writing
    obtain rfl := Option.some.inj stepped
    refine ⟨hash, bytes, writing, ?_⟩
    cases ok with
    | true => exact .inl ⟨rfl, rfl⟩
    | false => exact .inr ⟨rfl, rfl⟩
  · cases stepped

theorem rename_cases (stepped : s.step (.rename ok) = some t) :
    ∃ hash bytes, s.writer = .renaming hash bytes ∧
      ((∃ f, ok = true ∧ s.files.lookup (tmpOf hash) = some f ∧ t = { s with
          files := (s.files.erase (tmpOf hash)).insert (pathOf hash) f
          writer := .committing hash bytes.length true }) ∨
        (ok = false ∨ tmpOf hash ∉ s.files) ∧ t = { s with
          files := s.files.erase (tmpOf hash), writer := .committing hash bytes.length false }) := by
  simp only [step] at stepped
  split at stepped
  · rename_i hash bytes atRename
    refine ⟨hash, bytes, atRename, ?_⟩
    cases held : s.files.lookup (tmpOf hash) with
    | none =>
      rw [held] at stepped
      exact .inr ⟨.inr (AList.lookup_eq_none.mp held), (Option.some.inj stepped).symm⟩
    | some f =>
      rw [held] at stepped
      cases ok with
      | true => exact .inl ⟨f, rfl, rfl, (Option.some.inj stepped).symm⟩
      | false => exact .inr ⟨.inl rfl, (Option.some.inj stepped).symm⟩
  · cases stepped

theorem commit_cases (stepped : s.step .commit = some t) :
    ∃ hash size,
      (s.writer = .committing hash size true ∧ t = { evictToBudget (s.enter hash size) with
        queue := (evictToBudget (s.enter hash size)).queue.tail, writer := .waiting }) ∨
      (s.writer = .committing hash size false ∧ t = { s with queue := s.queue.tail, writer := .waiting }) := by
  simp only [step] at stepped
  split at stepped
  · rename_i hash size ok committing
    obtain rfl := Option.some.inj stepped
    refine ⟨hash, size, ?_⟩
    cases ok with
    | true => exact .inl ⟨committing, rfl⟩
    | false => exact .inr ⟨committing, rfl⟩
  · cases stepped

end BlockStore

end Mlxforge
