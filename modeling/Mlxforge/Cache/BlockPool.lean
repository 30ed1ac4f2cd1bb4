import Mlxforge.Cache.BatchKvCache
import Mlxforge.Lib.ByteReader

/-!
The pool of sealed K/V blocks: a map from chain keys to blocks, with LRU eviction under a
byte budget.
-/

namespace Mlxforge

/-- FNV-1a-64 of a byte string. -/
def fnv1a (data : List UInt8) (seed : UInt64 := 14695981039346656037) : UInt64 :=
  data.foldl (fun h p => (h ^^^ p.toUInt64) * 1099511628211) seed

def chainHash (prev : UInt64) (ids : List Int) : UInt64 :=
  fnv1a (ids.flatMap (littleEndian 4)) (fnv1a (littleEndian 8 prev.toNat))

/-- The key of the first `n` blocks of a prompt: the salt with each block's ids chained on. -/
def chainKey (salt : UInt64) (bs : Nat) (ids : List Int) : Nat → UInt64
  | 0 => salt
  | n + 1 => chainHash (chainKey salt bs ids n) ((ids.drop (n * bs)).take bs)

theorem chainKey_take (salt : UInt64) (bs : Nat) (ids : List Int) {n m : Nat} (le : n ≤ m) :
    chainKey salt bs (ids.take (m * bs)) n = chainKey salt bs ids n := by
  induction n with
  | zero => rfl
  | succ n ih =>
    have room : n * bs + bs ≤ m * bs := by
      rw [← Nat.succ_mul]
      exact Nat.mul_le_mul_right bs le
    simp only [chainKey, ih (by omega), List.drop_take, List.take_take]
    rw [Nat.min_eq_left (by omega)]

variable {V : Type}

/-- `lru` runs from the most recent key to the eviction victim; `evicted` is what the hook was handed. -/
structure BlockPool (V : Type) where
  lru : List UInt64 := []
  map : List (UInt64 × KVBlock V) := []
  budget : Nat
  bytes : Nat := 0
  evicted : List (UInt64 × KVBlock V) := []

namespace BlockPool

def get (p : BlockPool V) (hash : UInt64) : Option (KVBlock V) × BlockPool V :=
  match p.map.lookup hash with
  | none => (none, p)
  | some block => (some block, { p with lru := hash :: p.lru.erase hash })

def contains (p : BlockPool V) (hash : UInt64) : Bool := (p.map.lookup hash).isSome

/-- `n` turns of the eviction loop at most. -/
def evictLoop : (n : Nat) → BlockPool V → BlockPool V
  | 0, p => p
  | n + 1, p =>
    if p.budget < p.bytes then
      match p.lru.getLast? with
      | none => p
      | some victim =>
        match p.map.lookup victim with
        | none => p  -- a victim without an entry, which the source would dereference
        | some block => evictLoop n { p with
            evicted := p.evicted ++ [(victim, block)]
            bytes := p.bytes - block.bytes
            map := p.map.eraseP fun e => e.1 == victim
            lru := p.lru.dropLast }
    else p

def evictToBudget (p : BlockPool V) : BlockPool V :=
  if p.budget = 0 then p else evictLoop p.lru.length p

def insert (p : BlockPool V) (hash : UInt64) (block : KVBlock V) : BlockPool V :=
  if p.contains hash then p
  else if p.budget ≠ 0 ∧ block.bytes > p.budget then p
  else evictToBudget { p with
    lru := hash :: p.lru
    bytes := p.bytes + block.bytes
    map := (hash, block) :: p.map }

/-- What the pool holds, and what it has handed to the evict hook, satisfies `P`. -/
structure Keeps (P : UInt64 → KVBlock V → Prop) (p : BlockPool V) : Prop where
  held : ∀ e ∈ p.map, P e.1 e.2
  spilled : ∀ e ∈ p.evicted, P e.1 e.2

variable {P : UInt64 → KVBlock V → Prop} {p : BlockPool V} {hash : UInt64} {block : KVBlock V}

theorem mem_of_lookup {m : List (UInt64 × KVBlock V)} (found : m.lookup hash = some block) : (hash, block) ∈ m := by
  obtain ⟨l₁, l₂, rfl, _⟩ := List.lookup_eq_some_iff.mp found
  simp

theorem get_eq (p : BlockPool V) (hash : UInt64) :
    (p.get hash).1 = p.map.lookup hash ∧ (p.get hash).2.map = p.map ∧ (p.get hash).2.evicted = p.evicted := by
  unfold get
  cases p.map.lookup hash <;> exact ⟨rfl, rfl, rfl⟩

theorem get_keeps (h : p.Keeps P) (hash : UInt64) : (p.get hash).2.Keeps P := by
  obtain ⟨_, map, evicted⟩ := get_eq p hash
  exact ⟨map ▸ h.held, evicted ▸ h.spilled⟩

theorem get_holds (h : p.Keeps P) (found : (p.get hash).1 = some block) : P hash block := by
  rw [(get_eq p hash).1] at found
  exact h.held _ (mem_of_lookup found)

theorem evictLoop_keeps (n : Nat) (h : p.Keeps P) : (evictLoop n p).Keeps P := by
  induction n generalizing p with
  | zero => exact h
  | succ n ih =>
    unfold evictLoop
    split
    · split
      · exact h
      · rename_i victim _
        split
        · exact h
        · rename_i block found
          refine ih ⟨fun e member => h.held e (List.mem_of_mem_eraseP member), fun e member => ?_⟩
          rcases List.mem_append.mp member with old | new
          · exact h.spilled e old
          · rw [List.mem_singleton.mp new]
            exact h.held _ (mem_of_lookup found)
    · exact h

theorem insert_keeps (h : p.Keeps P) (holds : P hash block) : (p.insert hash block).Keeps P := by
  have added : BlockPool.Keeps P { p with
      lru := hash :: p.lru, bytes := p.bytes + block.bytes, map := (hash, block) :: p.map } := by
    refine ⟨fun e member => ?_, h.spilled⟩
    rcases List.mem_cons.mp member with rfl | old
    · exact holds
    · exact h.held e old
  unfold insert
  split
  · exact h
  · split
    · exact h
    · unfold evictToBudget
      split
      · exact added
      · exact evictLoop_keeps _ added

end BlockPool

end Mlxforge
