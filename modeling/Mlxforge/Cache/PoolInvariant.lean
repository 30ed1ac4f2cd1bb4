import Mlxforge.Cache.BlockPool
import Mlxforge.Lib.Recency

/-!
What holds of a block pool after any sequence of calls: the LRU list orders exactly the map's keys by use, the byte
count is that of the resident blocks and within the budget, and the evict hook sees every block that leaves.
-/

namespace Mlxforge

open Recency (ByUse)

variable {V : Type} {hash victim : UInt64} {block : KVBlock V}

/-! ### Maps as lists of entries -/

theorem lookup_isSome_iff {m : List (UInt64 × KVBlock V)} : (m.lookup hash).isSome = true ↔ hash ∈ m.map Prod.fst := by
  induction m with
  | nil => simp
  | cons e m ih =>
    obtain ⟨k, b⟩ := e
    by_cases same : hash = k
    · simp [same]
    · rw [List.lookup_cons, show (hash == k) = false by simpa using same, List.map_cons, List.mem_cons]
      simp [same, ih]

/-- Erasing the entry under a key takes away that key alone. -/
theorem lookup_eraseP {m : List (UInt64 × KVBlock V)} (keys : (m.map Prod.fst).Nodup) :
    (m.eraseP fun e => e.1 == victim).lookup hash = if hash = victim then none else m.lookup hash := by
  induction m with
  | nil => simp
  | cons e m ih =>
    obtain ⟨k, b⟩ := e
    rw [List.map_cons, List.nodup_cons] at keys
    by_cases here : k = victim
    · subst here
      rw [List.eraseP_cons_of_pos (by simp)]
      split
      · rename_i same
        subst same
        rw [← Option.not_isSome_iff_eq_none, lookup_isSome_iff]
        exact keys.1
      · rename_i other
        rw [List.lookup_cons, show (hash == k) = false by simpa using other]
    · rw [List.eraseP_cons_of_neg (by simpa using here), List.lookup_cons, List.lookup_cons]
      split
      · rename_i same
        obtain rfl : hash = k := by simpa using same
        rw [if_neg here]
      · exact ih keys.2

theorem map_fst_eraseP (m : List (UInt64 × KVBlock V)) :
    (m.eraseP fun e => e.1 == victim).map Prod.fst = (m.map Prod.fst).erase victim := by
  induction m with
  | nil => rfl
  | cons e m ih =>
    by_cases here : e.1 = victim
    · rw [List.eraseP_cons_of_pos (by simpa using here), List.map_cons, here, List.erase_cons_head]
    · rw [List.eraseP_cons_of_neg (by simpa using here), List.map_cons, List.map_cons, ih,
        List.erase_cons_tail (by simpa using here)]

/-- The size of a map is that of an entry and of the rest. -/
theorem sum_eraseP {m : List (UInt64 × KVBlock V)} (found : m.lookup victim = some block) :
    (m.map (·.2.bytes)).sum = block.bytes + ((m.eraseP fun e => e.1 == victim).map (·.2.bytes)).sum := by
  induction m with
  | nil => cases found
  | cons e m ih =>
    obtain ⟨k, b⟩ := e
    rw [List.lookup_cons] at found
    split at found
    · rename_i same
      obtain rfl : victim = k := by simpa using same
      obtain rfl := Option.some.inj found
      rw [List.eraseP_cons_of_pos (by simp), List.map_cons, List.sum_cons]
    · rename_i other
      have other : k ≠ victim := fun same => by simp [same] at other
      rw [List.eraseP_cons_of_neg (by simpa using other), List.map_cons, List.map_cons, List.sum_cons,
        List.sum_cons, ih found]
      omega

namespace BlockPool

variable {p : BlockPool V} {log : List UInt64}

/-- What the pool keeps of its list, its map and its count; `log` names the keys inserted or hit, the latest first. -/
structure Rep (log : List UInt64) (p : BlockPool V) : Prop where
  recency : ByUse log p.lru
  keys : (p.map.map Prod.fst).Nodup
  same : ∀ h, h ∈ p.lru ↔ h ∈ p.map.map Prod.fst
  bytes : p.bytes = (p.map.map (·.2.bytes)).sum

theorem Rep.resident (rep : Rep log p) (h : UInt64) : h ∈ p.lru ↔ p.contains h = true :=
  (rep.same h).trans lookup_isSome_iff.symm

theorem new_rep (budget : Nat) : Rep [] ({ budget } : BlockPool V) := ⟨.nil, .nil, fun _ => .rfl, rfl⟩

/-! ### Eviction -/

/-- `q` is what an eviction leaves of `p`: the least recently used blocks are gone, each was handed to the hook with its
key, and the last of them had to go. -/
structure Evicts (p q : BlockPool V) (gone : List (UInt64 × KVBlock V)) : Prop where
  hook : q.evicted = p.evicted ++ gone
  stored : ∀ e ∈ gone, p.map.lookup e.1 = some e.2
  lru : p.lru = q.lru ++ (gone.map Prod.fst).reverse
  map : ∀ h, q.map.lookup h = if h ∈ gone.map Prod.fst then none else p.map.lookup h
  bytes : p.bytes = q.bytes + (gone.map (·.2.bytes)).sum
  needed : ∀ e, gone.getLast? = some e → p.budget < q.bytes + e.2.bytes

theorem Evicts.refl (p : BlockPool V) : Evicts p p [] := ⟨by simp, nofun, by simp, fun _ => by simp, rfl, nofun⟩

/-- One turn of the loop. -/
def dropVictim (p : BlockPool V) (victim : UInt64) (block : KVBlock V) : BlockPool V :=
  { p with
    evicted := p.evicted ++ [(victim, block)]
    bytes := p.bytes - block.bytes
    map := p.map.eraseP fun e => e.1 == victim
    lru := p.lru.dropLast }

section
variable {front : List UInt64} (rep : Rep log p) (split : p.lru = front ++ [victim])
  (found : p.map.lookup victim = some block)
include rep split

theorem Rep.victim_not_mem : victim ∉ front := by
  have nodup := rep.recency.nodup
  rw [split] at nodup
  exact fun member => (List.nodup_append.mp nodup).2.2 victim member victim (List.mem_singleton_self _) rfl

include found

theorem dropVictim_rep : Rep log (p.dropVictim victim block) := by
  refine ⟨rep.recency.sublist (List.dropLast_sublist _), ?_, fun h => ?_, ?_⟩
  · rw [dropVictim, map_fst_eraseP]
    exact rep.keys.erase _
  · rw [dropVictim, map_fst_eraseP, rep.keys.mem_erase_iff, ← rep.same h, split, List.dropLast_concat, List.mem_append,
      List.mem_singleton]
    constructor
    · exact fun member => ⟨fun eq => rep.victim_not_mem split (eq ▸ member), .inl member⟩
    · exact fun ⟨other, member⟩ => member.resolve_right other
  · rw [dropVictim, rep.bytes, sum_eraseP found, Nat.add_sub_cancel_left]

/-- A turn before an eviction is an eviction. -/
theorem dropVictim_evicts {q : BlockPool V} {gone : List (UInt64 × KVBlock V)} (full : p.budget < p.bytes)
    (evicts : Evicts (p.dropVictim victim block) q gone) : Evicts p q ((victim, block) :: gone) := by
  have count : p.bytes = block.bytes + (q.bytes + (gone.map (·.2.bytes)).sum) := by
    have whole := rep.bytes
    have rest := evicts.bytes
    rw [sum_eraseP found] at whole
    rw [← rest, whole, dropVictim, whole, Nat.add_sub_cancel_left]
  refine ⟨?_, fun e member => ?_, ?_, fun h => ?_, ?_, fun e final => ?_⟩
  · rw [evicts.hook, dropVictim, List.append_assoc, List.singleton_append]
  · rcases List.mem_cons.mp member with rfl | later
    · exact found
    · have stored := evicts.stored e later
      rw [dropVictim, lookup_eraseP rep.keys] at stored
      split at stored
      · cases stored
      · exact stored
  · have rest := evicts.lru
    rw [dropVictim, split, List.dropLast_concat] at rest
    rw [List.map_cons, List.reverse_cons, ← List.append_assoc, ← rest, split]
  · rw [evicts.map h, dropVictim, lookup_eraseP rep.keys, List.map_cons]
    by_cases here : h = victim
    · simp [here]
    · rw [if_neg here]
      simp only [List.mem_cons, here, false_or]
  · rw [count, List.map_cons, List.sum_cons]
    dsimp only
    omega
  · cases gone with
    | nil =>
      obtain rfl := Option.some.inj final
      rw [count, List.map_nil, List.sum_nil, Nat.add_zero, Nat.add_comm] at full
      exact full
    | cons e' gone =>
      rw [List.getLast?_cons_cons] at final
      exact evicts.needed e final

end

theorem Rep.empty (rep : Rep log p) (empty : p.lru = []) : p.bytes = 0 := by
  have none : p.map = [] := by
    rw [← List.map_eq_nil_iff (f := Prod.fst), List.eq_nil_iff_forall_not_mem]
    intro h member
    rw [← rep.same, empty] at member
    cases member
  rw [rep.bytes, none]
  rfl

/-- The loop brings the pool within its budget, from the back of the list. -/
theorem evictLoop_spec {n : Nat} (rep : Rep log p) (turns : p.lru.length ≤ n) :
    Rep log (evictLoop n p) ∧ (evictLoop n p).budget = p.budget ∧ (evictLoop n p).bytes ≤ p.budget ∧
      ∃ gone, Evicts p (evictLoop n p) gone := by
  induction n generalizing p with
  | zero =>
    have none := rep.empty (List.length_eq_zero_iff.mp (Nat.le_zero.mp turns))
    exact ⟨rep, rfl, none.trans_le (Nat.zero_le _), [], .refl p⟩
  | succ n ih =>
    unfold evictLoop
    split
    · rename_i full
      split
      · rename_i empty
        rw [rep.empty (List.getLast?_eq_none_iff.mp empty)] at full
        exact absurd full (Nat.not_lt_zero _)
      · rename_i victim last
        obtain ⟨front, split⟩ := List.getLast?_eq_some_iff.mp last
        split
        · rename_i absent
          have resident := (rep.resident victim).mp (by simp [split])
          rw [contains, absent] at resident
          cases resident
        · rename_i block found
          have fewer : (p.dropVictim victim block).lru.length ≤ n := by
            rw [split, List.length_append, List.length_singleton] at turns
            change p.lru.dropLast.length ≤ n
            rw [split, List.dropLast_concat]
            omega
          obtain ⟨rep', budget, within, gone, evicts⟩ := ih (dropVictim_rep rep split found) fewer
          exact ⟨rep', budget, within, _, dropVictim_evicts rep split found full evicts⟩
    · rename_i fits
      exact ⟨rep, rfl, Nat.not_lt.mp fits, [], .refl p⟩

/-! ### Any sequence of calls -/

inductive Call (V : Type) where
  | get (hash : UInt64)
  | insert (hash : UInt64) (block : KVBlock V)

def Call.run (p : BlockPool V) : Call V → BlockPool V
  | .get hash => (p.get hash).2
  | .insert hash block => p.insert hash block

/-- The key a call hits or inserts, if any. -/
def Call.uses (p : BlockPool V) : Call V → List UInt64
  | .get hash => if p.contains hash then [hash] else []
  | .insert hash block => if p.contains hash ∨ p.budget ≠ 0 ∧ block.bytes > p.budget then [] else [hash]

/-- The pool after the calls, and the log of their uses. -/
def after (budget : Nat) (calls : List (Call V)) : BlockPool V × List UInt64 :=
  calls.foldl (fun s call => (call.run s.1, call.uses s.1 ++ s.2)) ({ budget }, [])

/-- What one call does to the blocks and to the hook. -/
structure CallSpec (p : BlockPool V) (call : Call V) (q : BlockPool V) : Prop where
  admitted : ∀ h b, call = .insert h b → p.contains h = false → p.budget = 0 ∨ b.bytes ≤ p.budget →
    q.map.lookup h = some b
  content : ∀ h b, p.map.lookup h = some b → q.map.lookup h = some b ∨ q.map.lookup h = none
  /-- The blocks that leave are those at the end of the list, handed over from the back. -/
  hook : ∃ kept gone, p.lru = kept ++ (gone.map Prod.fst).reverse ∧ q.evicted = p.evicted ++ gone ∧
    (∀ e ∈ gone, p.map.lookup e.1 = some e.2) ∧ ∀ h ∈ p.lru, q.contains h = true ↔ h ∈ kept

theorem CallSpec.quiet {q : BlockPool V} {call : Call V} (rep : Rep log p) (map : q.map = p.map)
    (evicted : q.evicted = p.evicted)
    (refused : ∀ h b, call = .insert h b → p.contains h = false → ¬(p.budget = 0 ∨ b.bytes ≤ p.budget)) :
    CallSpec p call q where
  admitted := fun h b eq new fits => absurd fits (refused h b eq new)
  content := fun h b found => .inl (by rw [map, found])
  hook := by
    refine ⟨p.lru, [], by simp, by simp [evicted], nofun, fun h member => ?_⟩
    rw [contains, map, ← contains, ← rep.resident h]

section
variable (hash block) in
/-- The pool with a new block, before the eviction. -/
def filled (p : BlockPool V) : BlockPool V :=
  { p with lru := hash :: p.lru, bytes := p.bytes + block.bytes, map := (hash, block) :: p.map }

variable (rep : Rep log p) (new : p.contains hash = false)
include rep new

theorem filled_rep (block : KVBlock V) : Rep (hash :: log) (p.filled hash block) := by
  have absent : hash ∉ p.lru := fun member => by
    have resident := (rep.resident hash).mp member
    rw [new] at resident
    cases resident
  refine ⟨?_, ?_, fun h => ?_, ?_⟩
  · have used := rep.recency.use hash
    rwa [List.erase_of_not_mem absent] at used
  · exact List.nodup_cons.mpr ⟨fun member => absent ((rep.same hash).mpr member), rep.keys⟩
  · simp only [filled, List.map_cons, List.mem_cons, rep.same h]
  · simp only [filled, List.map_cons, List.sum_cons, rep.bytes]
    omega

omit rep in
theorem filled_lookup {h : UInt64} {b : KVBlock V} (found : p.map.lookup h = some b) :
    (p.filled hash block).map.lookup h = some b := by
  have other : (h == hash) = false := by
    by_contra same
    obtain rfl : h = hash := by simpa using same
    rw [contains, found] at new
    cases new
  rw [filled, List.lookup_cons, other]
  exact found

/-- An eviction after a block was added keeps that block. -/
theorem filled_spec {q : BlockPool V} {gone : List (UInt64 × KVBlock V)} (fits : gone ≠ [] → block.bytes ≤ p.budget)
    (rep' : Rep (hash :: log) q) (evicts : Evicts (p.filled hash block) q gone) :
    CallSpec p (.insert hash block) q := by
  have order : hash :: p.lru = q.lru ++ (gone.map Prod.fst).reverse := evicts.lru
  have first : (p.filled hash block).map.lookup hash = some block := by simp [filled]
  obtain ⟨kept, front⟩ : ∃ kept, q.lru = hash :: kept := by
    cases inner : q.lru with
    | nil =>
      -- all is gone: the new block was the last to go, and it did not have to
      rw [inner, List.nil_append] at order
      obtain ⟨before, e, rfl⟩ : ∃ before e, gone = before ++ [e] := by
        rcases List.eq_nil_or_concat gone with none | ⟨before, e, eq⟩
        · rw [none] at order
          cases order
        · exact ⟨before, e, by simpa using eq⟩
      rw [List.map_append, List.reverse_append, List.map_singleton, List.reverse_singleton, List.singleton_append] at order
      have key := (List.cons.inj order).1
      have stored := evicts.stored e (by simp)
      rw [← key, first] at stored
      have needed : p.budget < q.bytes + e.2.bytes := evicts.needed e (by simp)
      rw [rep'.empty inner, ← Option.some.inj stored] at needed
      have := fits (by simp)
      omega
    | cons h kept =>
      rw [inner] at order
      exact ⟨kept, by rw [(List.cons.inj order).1]⟩
  rw [front, List.cons_append] at order
  have order := (List.cons.inj order).2
  have stays : hash ∉ gone.map Prod.fst := by
    intro member
    have nodup := (filled_rep rep new block).recency.nodup
    rw [show (p.filled hash block).lru = hash :: p.lru from rfl, order, List.nodup_cons] at nodup
    exact nodup.1 (List.mem_append_right _ (List.mem_reverse.mpr member))
  refine ⟨fun h b eq _ _ => ?_, fun h b found => ?_, kept, gone, order, evicts.hook, fun e member => ?_, fun h member => ?_⟩
  · obtain ⟨rfl, rfl⟩ := Call.insert.inj eq
    rw [evicts.map, if_neg stays, first]
  · rw [evicts.map, filled_lookup new found]
    split
    · exact .inr rfl
    · exact .inl rfl
  · have stored := evicts.stored e member
    have other : (e.1 == hash) = false := by
      by_contra same
      exact stays ((show e.1 = hash by simpa using same) ▸ List.mem_map_of_mem member)
    rwa [filled, List.lookup_cons, other] at stored
  · have other : h ≠ hash := by
      rintro rfl
      rw [(rep.resident h).mp member] at new
      cases new
    rw [← rep'.resident h, front, List.mem_cons]
    simp [other]

end

theorem get_spec (rep : Rep log p) (hash : UInt64) :
    Rep ((Call.get hash).uses p ++ log) (p.get hash).2 ∧ (p.get hash).2.budget = p.budget ∧
      (p.get hash).2.bytes = p.bytes ∧ CallSpec p (.get hash) (p.get hash).2 := by
  cases found : p.map.lookup hash with
  | none =>
    rw [get, found, Call.uses, if_neg (by simp [contains, found])]
    exact ⟨rep, rfl, rfl, .quiet rep rfl rfl nofun⟩
  | some block =>
    have resident : p.contains hash = true := by rw [contains, found]; rfl
    rw [get, found, Call.uses, if_pos resident]
    refine ⟨⟨rep.recency.use hash, rep.keys, fun h => ?_, rep.bytes⟩, rfl, rfl, .quiet rep rfl rfl nofun⟩
    rw [← rep.same h]
    exact (List.perm_cons_erase ((rep.resident hash).mpr resident)).mem_iff.symm

theorem insert_spec (rep : Rep log p) (within : p.budget ≠ 0 → p.bytes ≤ p.budget) (hash : UInt64) (block : KVBlock V) :
    Rep ((Call.insert hash block).uses p ++ log) (p.insert hash block) ∧ (p.insert hash block).budget = p.budget ∧
      (p.budget ≠ 0 → (p.insert hash block).bytes ≤ p.budget) ∧ CallSpec p (.insert hash block) (p.insert hash block) := by
  unfold insert
  by_cases old : p.contains hash = true
  · rw [if_pos old, Call.uses, if_pos (.inl old)]
    refine ⟨rep, rfl, within, .quiet rep rfl rfl fun h b eq new => ?_⟩
    obtain ⟨rfl, rfl⟩ := Call.insert.inj eq
    rw [old] at new
    cases new
  rw [if_neg old]
  by_cases large : p.budget ≠ 0 ∧ block.bytes > p.budget
  · rw [if_pos large, Call.uses, if_pos (.inr large)]
    refine ⟨rep, rfl, within, .quiet rep rfl rfl fun h b eq _ => ?_⟩
    obtain ⟨rfl, rfl⟩ := Call.insert.inj eq
    omega
  have new : p.contains hash = false := by simpa using old
  have rep' := filled_rep rep new block
  rw [if_neg large, Call.uses, if_neg (not_or.mpr ⟨old, large⟩), List.singleton_append]
  change Rep (hash :: log) (p.filled hash block).evictToBudget ∧ (p.filled hash block).evictToBudget.budget = _ ∧
    (_ → (p.filled hash block).evictToBudget.bytes ≤ _) ∧ CallSpec p _ (p.filled hash block).evictToBudget
  unfold evictToBudget
  split
  · rename_i unbounded
    have unbounded : p.budget = 0 := unbounded
    exact ⟨rep', rfl, fun bounded => absurd unbounded bounded,
      filled_spec rep new (fun none => absurd rfl none) rep' (.refl _)⟩
  · rename_i bounded
    have bounded : p.budget ≠ 0 := bounded
    obtain ⟨rep'', budget, fitting, gone, evicts⟩ := evictLoop_spec rep' le_rfl
    exact ⟨rep'', budget, fun _ => fitting, filled_spec rep new (fun _ => by omega) rep'' evicts⟩

/-- After every sequence of calls the list orders exactly the resident keys by use, the bytes are counted and within the
budget, and the next call keeps contents, admits what fits, and hands each block that leaves to the hook. -/
theorem after_spec (budget : Nat) (calls : List (Call V)) :
    Rep (after budget calls).2 (after budget calls).1 ∧
      (budget ≠ 0 → (after budget calls).1.bytes ≤ budget) ∧
      ∀ call : Call V, CallSpec (after budget calls).1 call (call.run (after budget calls).1) := by
  have holds : Rep (after budget calls).2 (after budget calls).1 ∧ (after budget calls).1.budget = budget ∧
      (budget ≠ 0 → (after budget calls).1.bytes ≤ budget) := by
    induction calls using List.reverseRecOn with
    | nil => exact ⟨new_rep budget, rfl, fun _ => Nat.zero_le _⟩
    | append_singleton calls call ih =>
      obtain ⟨rep, same, within⟩ := ih
      rw [after, List.foldl_append, List.foldl_cons, List.foldl_nil, ← after]
      cases call with
      | get hash =>
        obtain ⟨rep', budget', bytes', -⟩ := get_spec rep hash
        exact ⟨rep', budget'.trans same, fun bounded => bytes'.trans_le (within bounded)⟩
      | insert hash block =>
        obtain ⟨rep', budget', within', -⟩ := insert_spec rep (same.symm ▸ within) hash block
        exact ⟨rep', budget'.trans same, fun bounded => (within' (same.trans_ne bounded)).trans_eq same⟩
  obtain ⟨rep, same, within⟩ := holds
  refine ⟨rep, within, fun call => ?_⟩
  cases call with
  | get hash => exact (get_spec rep hash).2.2.2
  | insert hash block => exact (insert_spec rep (same.symm ▸ within) hash block).2.2.2

end BlockPool

end Mlxforge
