import Mlxforge.Cache.PoolInvariant
import Mlxforge.Cache.PrefixCache

/-!
What a harvest leaves of the prompt it seals. The pool's keys are a list in order of use, cut to the budget: a harvest
puts the fresh keys in front and leaves the pooled ones where they are, so an old part of the chain can fall off.
-/

namespace Mlxforge

open Recency (fitting fitting_eq fitting_append fitting_cons_fitting mem_fitting_iff)

variable {V : Type}

namespace BlockPool

variable {p q : BlockPool V} {log : List UInt64} {hash : UInt64} {block : KVBlock V} {size : UInt64 → Nat}

/-- The sizes of the pool's blocks, by key. -/
def Sized (size : UInt64 → Nat) (p : BlockPool V) : Prop := ∀ h b, p.map.lookup h = some b → b.bytes = size h

/-- What a budget leaves of the keys, the latest used first; 0 is no budget. -/
def trimmed (size : UInt64 → Nat) (budget : Nat) (keys : List UInt64) : List UInt64 :=
  if budget = 0 then keys else fitting size budget keys

theorem trimmed_cons_trimmed (budget : Nat) (h : UInt64) (keys : List UInt64) :
    trimmed size budget (h :: trimmed size budget keys) = trimmed size budget (h :: keys) := by
  unfold trimmed
  split
  · rfl
  · exact fitting_cons_fitting h keys

/-- The bytes of the blocks that were used no earlier than the one under a key. -/
def bytesSince (p : BlockPool V) (size : UInt64 → Nat) (key : UInt64) : Nat :=
  ((p.lru.take (p.lru.idxOf key + 1)).map size).sum

/-- A pooled key stays behind newer ones exactly when the budget holds these and all that was used since. -/
theorem mem_trimmed_old {budget : Nat} {front : List UInt64} (nodup : (front ++ p.lru).Nodup) (old : hash ∈ p.lru) :
    hash ∈ trimmed size budget (front ++ p.lru) ↔
      budget = 0 ∨ (front.map size).sum + p.bytesSince size hash ≤ budget := by
  obtain ⟨before, after, split, first⟩ := List.eq_append_cons_of_mem old
  have since : p.bytesSince size hash = (before.map size).sum + size hash := by
    have index : p.lru.idxOf hash = before.length := by
      rw [split, List.idxOf_append_of_notMem first, List.idxOf_cons_self, Nat.add_zero]
    have taken : p.lru.take (before.length + 1) = before ++ [hash] := by
      rw [split, List.take_length_add_append, List.take_one, List.head?_cons, Option.toList_some]
    rw [bytesSince, index, taken, List.map_append, List.sum_append, List.map_singleton, List.sum_singleton]
  rw [since]
  unfold trimmed
  split
  · rename_i unbounded
    constructor
    · intro _
      exact .inl unbounded
    · intro _
      exact List.mem_append_right _ old
  · rename_i bounded
    rw [split, ← List.append_assoc] at nodup ⊢
    rw [mem_fitting_iff nodup, List.map_append, List.sum_append, Nat.add_assoc, or_iff_right bounded]

/-- A key among those that fit together in front stays. -/
theorem mem_trimmed_new {budget : Nat} {front keys : List UInt64} (fits : budget = 0 ∨ (front.map size).sum ≤ budget)
    (new : hash ∈ front) : hash ∈ trimmed size budget (front ++ keys) := by
  unfold trimmed
  split
  · exact List.mem_append_left _ new
  · rename_i bounded
    rw [fitting_append (fits.resolve_left bounded)]
    exact List.mem_append_left _ new

theorem lookup_of_entry {m : List (UInt64 × KVBlock V)} (keys : (m.map Prod.fst).Nodup) (member : (hash, block) ∈ m) :
    m.lookup hash = some block := by
  obtain ⟨found, there⟩ := Option.isSome_iff_exists.mp
    (lookup_isSome_iff.mpr (List.mem_map_of_mem (f := Prod.fst) member))
  rw [there, Option.some.injEq]
  have entry := mem_of_lookup there
  exact congrArg Prod.snd (List.inj_on_of_nodup_map keys entry member rfl)

/-- The byte count is the size of the keys in the list. -/
theorem Rep.sum_lru (rep : Rep log p) (sized : p.Sized size) : (p.lru.map size).sum = p.bytes := by
  have order : p.lru.Perm (p.map.map Prod.fst) := (List.perm_ext_iff_of_nodup rep.recency.nodup rep.keys).mpr rep.same
  have sizes : (p.map.map Prod.fst).map size = p.map.map (·.2.bytes) := by
    rw [List.map_map]
    apply List.map_congr_left
    intro e member
    exact (sized e.1 e.2 (lookup_of_entry rep.keys member)).symm
  rw [rep.bytes, ← sizes]
  exact (order.map size).sum_eq

/-- An eviction cuts the list to the budget. -/
theorem evictToBudget_lru (rep : Rep log p) (sized : p.Sized size) :
    Rep log p.evictToBudget ∧ p.evictToBudget.budget = p.budget ∧
      p.evictToBudget.lru = trimmed size p.budget p.lru ∧
      ∀ h b, p.evictToBudget.map.lookup h = some b → p.map.lookup h = some b := by
  unfold evictToBudget trimmed
  split
  · exact ⟨rep, rfl, rfl, fun _ _ found => found⟩
  · obtain ⟨rep', budget, within, gone, evicts⟩ := evictLoop_spec rep le_rfl
    have content : ∀ h b, (evictLoop p.lru.length p).map.lookup h = some b → p.map.lookup h = some b := by
      intro h b found
      rw [evicts.map h] at found
      split at found
      · cases found
      · exact found
    refine ⟨rep', budget, ?_, content⟩
    generalize evictLoop p.lru.length p = q at rep' within evicts content
    have sized' : q.Sized size := fun h b found => sized h b (content h b found)
    rw [evicts.lru, fitting_eq]
    · rw [rep'.sum_lru sized']
      exact within
    · intro victim first
      rw [rep'.sum_lru sized']
      rw [List.head?_reverse, List.getLast?_map, Option.map_eq_some_iff] at first
      obtain ⟨e, final, rfl⟩ := first
      rw [← sized e.1 e.2 (evicts.stored e (List.mem_of_getLast? final))]
      exact evicts.needed e final

/-- What an insertion of a fresh block that fits does to the list and the map. -/
theorem insert_lru (rep : Rep log p) (sized : p.Sized size) (new : p.contains hash = false)
    (fits : p.budget = 0 ∨ size hash ≤ p.budget) (own : block.bytes = size hash) :
    Rep (hash :: log) (p.insert hash block) ∧ (p.insert hash block).budget = p.budget ∧
      (p.insert hash block).lru = trimmed size p.budget (hash :: p.lru) ∧
      ∀ h b, (p.insert hash block).map.lookup h = some b → h = hash ∧ b = block ∨ p.map.lookup h = some b := by
  have admitted : ¬ (p.budget ≠ 0 ∧ block.bytes > p.budget) := by
    rw [own]
    omega
  have entries : ∀ h b, (p.filled hash block).map.lookup h = some b → h = hash ∧ b = block ∨ p.map.lookup h = some b := by
    intro h b found
    rw [filled, List.lookup_cons] at found
    split at found
    · rename_i same
      exact .inl ⟨by simpa using same, (Option.some.inj found).symm⟩
    · exact .inr found
  have sized' : (p.filled hash block).Sized size := by
    intro h b found
    rcases entries h b found with ⟨rfl, rfl⟩ | old
    · exact own
    · exact sized h b old
  obtain ⟨rep', budget, lru, content⟩ := evictToBudget_lru (filled_rep rep new block) sized'
  rw [insert, if_neg (by rw [new]; simp), if_neg admitted]
  exact ⟨rep', budget, lru, fun h b found => entries h b (content h b found)⟩

/-! ### Inserting one block after another -/

theorem nodup_eraseDups (keys : List UInt64) : keys.eraseDups.Nodup := by
  induction keys using List.reverseRecOn with
  | nil => exact List.nodup_nil
  | append_singleton keys key ih =>
    rw [List.eraseDups_append]
    by_cases old : key ∈ keys
    · simpa [List.removeAll, old] using ih
    · have last : ([key].removeAll keys).eraseDups = [key] := by simp [List.removeAll, old, List.eraseDups_cons]
      rw [last, List.nodup_append]
      refine ⟨ih, List.nodup_singleton key, fun a member b final => ?_⟩
      rw [List.mem_singleton.mp final]
      rintro rfl
      exact old (List.mem_eraseDups.mp member)

/-- `q` is what is left of `p` after the blocks were inserted, none of which it held. -/
structure Holds (size : UInt64 → Nat) (p : BlockPool V) (blocks : List (UInt64 × KVBlock V)) (q : BlockPool V) : Prop where
  rep : ∃ log, Rep log q
  budget : q.budget = p.budget
  lru : q.lru = trimmed size p.budget ((blocks.map Prod.fst).eraseDups.reverse ++ p.lru)
  content : ∀ h b, q.map.lookup h = some b → (p.map ++ blocks).lookup h = some b

/-- Each key enters the list once, with the first block under it. -/
theorem insertAll_holds {blocks : List (UInt64 × KVBlock V)} (rep : Rep log p)
    (within : p.budget ≠ 0 → p.bytes ≤ p.budget) (new : ∀ e ∈ blocks, p.contains e.1 = false)
    (sized : ∀ h b, (p.map ++ blocks).lookup h = some b → b.bytes = size h)
    (fits : p.budget = 0 ∨ ((blocks.map Prod.fst).eraseDups.map size).sum ≤ p.budget) :
    p.Holds size blocks (blocks.foldl (fun pool e => pool.insert e.1 e.2) p) := by
  have sizedHere : p.Sized size := by
    intro h b found
    apply sized h b
    rw [List.lookup_append, found, Option.some_or]
  induction blocks using List.reverseRecOn with
  | nil =>
    refine ⟨⟨log, rep⟩, rfl, ?_, fun h b found => by rwa [List.append_nil]⟩
    show p.lru = trimmed size p.budget p.lru
    unfold trimmed
    split
    · rfl
    · rename_i bounded
      rw [Recency.fitting_of_le]
      rw [rep.sum_lru sizedHere]
      exact within bounded
  | append_singleton blocks e ih =>
    have earlier : ∀ h b, (p.map ++ blocks).lookup h = some b → (p.map ++ (blocks ++ [e])).lookup h = some b := by
      intro h b found
      rw [← List.append_assoc, List.lookup_append, found, Option.some_or]
    rw [List.map_append, List.map_singleton, List.eraseDups_append, List.map_append, List.sum_append] at fits
    obtain ⟨⟨log', rep'⟩, budget, lru, content⟩ := ih (fun e member => new e (List.mem_append_left _ member))
      (fun h b found => sized h b (earlier h b found)) (by omega)
    rw [List.foldl_append, List.foldl_cons, List.foldl_nil]
    generalize blocks.foldl (fun pool e => pool.insert e.1 e.2) p = q at rep' budget lru content
    by_cases twice : e.1 ∈ blocks.map Prod.fst
    · -- the key was inserted before and is still there: the first block under it wins
      have none : ([e.1].removeAll (blocks.map Prod.fst)).eraseDups = [] := by
        rw [List.removeAll, List.filter_cons_of_neg (by simpa using twice)]
        rfl
      have there : q.contains e.1 = true := by
        rw [← rep'.resident, lru]
        apply mem_trimmed_new
        · rw [List.map_reverse, List.sum_reverse]
          omega
        · exact List.mem_reverse.mpr (List.mem_eraseDups.mpr twice)
      rw [insert, if_pos there]
      refine ⟨⟨log', rep'⟩, budget, ?_, fun h b found => earlier h b (content h b found)⟩
      rw [List.map_append, List.map_singleton, List.eraseDups_append, none, List.append_nil]
      exact lru
    · have once : ([e.1].removeAll (blocks.map Prod.fst)).eraseDups = [e.1] := by
        rw [List.removeAll, List.filter_cons_of_pos (by simpa using twice)]
        rfl
      have absent : p.contains e.1 = false := new e (List.mem_append_right _ List.mem_cons_self)
      have unseen : (p.map ++ blocks).lookup e.1 = none := by
        rw [List.lookup_append, Option.or_eq_none_iff]
        rw [contains, Option.isSome_eq_false_iff, Option.isNone_iff_eq_none] at absent
        refine ⟨absent, ?_⟩
        rw [← Option.not_isSome_iff_eq_none, lookup_isSome_iff]
        exact twice
      have fresh : q.contains e.1 = false := by
        cases found : q.map.lookup e.1 with
        | none => rw [contains, found]; rfl
        | some b =>
          have known := content e.1 b found
          rw [unseen] at known
          cases known
      have first : (p.map ++ (blocks ++ [e])).lookup e.1 = some e.2 := by
        rw [← List.append_assoc, List.lookup_append, unseen, Option.none_or, List.lookup_cons_self]
      rw [once, List.map_singleton, List.sum_singleton] at fits
      have room : q.budget = 0 ∨ size e.1 ≤ q.budget := by
        rw [budget]
        omega
      obtain ⟨rep'', budget', lru', content'⟩ := insert_lru rep'
        (fun h b found => sized h b (earlier h b (content h b found))) fresh room (sized e.1 e.2 first)
      refine ⟨⟨_, rep''⟩, budget'.trans budget, ?_, fun h b found => ?_⟩
      · rw [lru', budget, lru, trimmed_cons_trimmed, List.map_append, List.map_singleton, List.eraseDups_append, once,
          List.reverse_append, List.reverse_singleton, List.append_assoc, List.singleton_append]
      · rcases content' h b found with ⟨rfl, rfl⟩ | old
        · exact first
        · exact earlier h b (content h b old)

/-- Which keys are there after the insertions: the new ones, and the old ones the budget has room for behind them. -/
theorem Holds.resident {blocks : List (UInt64 × KVBlock V)} (holds : p.Holds size blocks q) (rep : Rep log p)
    (new : ∀ e ∈ blocks, p.contains e.1 = false)
    (fits : p.budget = 0 ∨ ((blocks.map Prod.fst).eraseDups.map size).sum ≤ p.budget) (hash : UInt64) :
    (hash ∈ blocks.map Prod.fst → q.contains hash = true) ∧
      (p.contains hash = true → (q.contains hash = true ↔ p.budget = 0 ∨
        ((blocks.map Prod.fst).eraseDups.map size).sum + p.bytesSince size hash ≤ p.budget)) := by
  obtain ⟨log', rep'⟩ := holds.rep
  have total : ((blocks.map Prod.fst).eraseDups.reverse.map size).sum = ((blocks.map Prod.fst).eraseDups.map size).sum := by
    rw [List.map_reverse, List.sum_reverse]
  constructor
  · intro member
    rw [← rep'.resident, holds.lru]
    apply mem_trimmed_new
    · rw [total]
      exact fits
    · exact List.mem_reverse.mpr (List.mem_eraseDups.mpr member)
  · intro old
    have nodup : ((blocks.map Prod.fst).eraseDups.reverse ++ p.lru).Nodup := by
      refine List.nodup_append.mpr ⟨List.nodup_reverse.mpr (nodup_eraseDups _), rep.recency.nodup, ?_⟩
      intro a front b back same
      subst same
      obtain ⟨e, member, rfl⟩ := List.mem_map.mp (List.mem_eraseDups.mp (List.mem_reverse.mp front))
      have there := (rep.resident _).mp back
      rw [new e member] at there
      cases there
    rw [← rep'.resident, holds.lru, mem_trimmed_old nodup ((rep.resident hash).mpr old), total]

end BlockPool

namespace PrefixCache

open BlockPool (Rep)

/-! ### Every reachable pool -/

section
variable {I : BlockPool V → Prop} (get : ∀ p hash, I p → I (p.get hash).2)
  (insert : ∀ p hash block, I p → I (p.insert hash block))
include get insert

theorem lookup_rule {miss : Option (MissFn V)} {pool : BlockPool V} (hash : UInt64) (holds : I pool) :
    I (lookup miss pool hash).2 := by
  have bumped := get pool hash holds
  unfold lookup
  cases answer : pool.get hash with
  | mk block pool' =>
    rw [answer] at bumped
    cases block with
    | some b => exact bumped
    | none =>
      cases miss with
      | none => exact bumped
      | some onMiss =>
        cases found : onMiss pool'.evicted hash with
        | none => simpa only [found] using bumped
        | some b => simpa only [found] using insert _ _ _ bumped

theorem matchLoop_rule {miss : Option (MissFn V)} {bs n b : Nat} {ids : List Int} {h : UInt64} {pool : BlockPool V}
    (holds : I pool) : I (matchLoop miss bs ids n b h pool).2 := by
  induction n generalizing b h pool with
  | zero => exact holds
  | succ n ih =>
    have looked : I (lookup miss pool (chainHash h ((ids.drop (b * bs)).take bs))).2 := lookup_rule get insert _ holds
    simp only [matchLoop]
    cases answer : lookup miss pool (chainHash h ((ids.drop (b * bs)).take bs)) with
    | mk block pool' =>
      rw [answer] at looked
      cases block with
      | none => exact looked
      | some b => exact ih looked

/-- What every lookup and every insertion keeps holds of every reachable pool. -/
theorem reachable_rule {s : Setting V} {c : PrefixCache V} (reached : Reachable s c)
    (new : I { budget := s.cfg.poolBytes }) : c.cfg = s.cfg ∧ I c.pool := by
  induction reached with
  | new => exact ⟨rfl, new⟩
  | matchIds _ _ _ ih => exact ⟨ih.1, matchLoop_rule get insert ih.2⟩
  | @harvest c ids len fetch _ _ _ ih =>
    have all : ∀ (blocks : List (UInt64 × KVBlock V)) (pool : BlockPool V), I pool →
        I (blocks.foldl (fun pool e => pool.insert e.1 e.2) pool) := by
      intro blocks
      induction blocks with
      | nil => exact fun _ holds => holds
      | cons e blocks rest => exact fun pool holds => rest _ (insert _ _ _ holds)
    exact ⟨ih.1, all _ _ ih.2⟩

end

/-- The pool's list and count are in order, and it is within its budget. -/
structure Accounted (bound : Nat) (p : BlockPool V) : Prop where
  budget : p.budget = bound
  within : bound ≠ 0 → p.bytes ≤ bound
  rep : ∃ log, Rep log p

theorem reachable_accounted {s : Setting V} {c : PrefixCache V} (reached : Reachable s c) :
    c.cfg = s.cfg ∧ Accounted s.cfg.poolBytes c.pool := by
  refine reachable_rule ?_ ?_ reached ⟨rfl, fun _ => Nat.zero_le _, [], BlockPool.new_rep _⟩
  · intro p hash ⟨budget, within, log, rep⟩
    obtain ⟨rep', budget', bytes, _⟩ := BlockPool.get_spec rep hash
    exact ⟨budget'.trans budget, fun bounded => bytes.trans_le (within bounded), _, rep'⟩
  · intro p hash block ⟨budget, within, log, rep⟩
    rw [← budget] at within ⊢
    obtain ⟨rep', budget', within', _⟩ := BlockPool.insert_spec rep within hash block
    exact ⟨budget', within', _, rep'⟩

/-! ### The prompt's chain -/

section
variable (c : PrefixCache V) (nbytes : KvArray V → Nat) (ids : List Int) (len nLayers : Nat) (fetch : LayerFetch V)

/-- The keys of the prompt's full blocks. -/
def chainKeys : List UInt64 :=
  (List.range (ids.length / c.cfg.blockSize)).map fun b => chainKey c.cfg.salt c.cfg.blockSize ids (b + 1)

/-- The blocks a harvest seals: those of the first `len` positions the pool does not hold. -/
def freshBlocks : List (UInt64 × KVBlock V) :=
  let bs := c.cfg.blockSize
  let hash := fun b => chainKey c.cfg.salt bs ids (b + 1)
  ((List.range (min len ids.length / bs)).filter fun b => !c.pool.contains (hash b)).map fun b =>
    (hash b, sealBlock nbytes bs nLayers fetch b)

theorem harvest_pool : (c.harvest nbytes ids len nLayers fetch).pool =
    (c.freshBlocks nbytes ids len nLayers fetch).foldl (fun pool e => pool.insert e.1 e.2) c.pool := rfl

/-- The block under a key: the pooled one, else the first one the harvest seals. -/
def blockAt (key : UInt64) : Option (KVBlock V) :=
  (c.pool.map ++ c.freshBlocks nbytes ids len nLayers fetch).lookup key

/-- The blocks of the harvested prompt, the first `len` of the row's tokens. -/
def chain : List (KVBlock V) := (c.chainKeys (ids.take len)).filterMap (c.blockAt nbytes ids len nLayers fetch)

/-- The bytes of the block under a key. -/
def bytesAt (key : UInt64) : Nat := ((c.blockAt nbytes ids len nLayers fetch key).map (·.bytes)).getD 0

/-- The bytes of the blocks a harvest seals, each key counted once. -/
def freshBytes : Nat :=
  (((c.freshBlocks nbytes ids len nLayers fetch).map Prod.fst).eraseDups.map (c.bytesAt nbytes ids len nLayers fetch)).sum

variable {c nbytes ids len nLayers fetch}

theorem chainKeys_take : c.chainKeys (ids.take len) =
    (List.range (min len ids.length / c.cfg.blockSize)).map fun b => chainKey c.cfg.salt c.cfg.blockSize ids (b + 1) := by
  rw [chainKeys, List.length_take]
  apply List.map_congr_left
  intro b member
  have inside : (b + 1) * c.cfg.blockSize ≤ min len ids.length :=
    (Nat.mul_le_mul_right _ (List.mem_range.mp member)).trans (Nat.div_mul_le_self _ _)
  rw [← chainKey_take c.cfg.salt c.cfg.blockSize (ids.take len) (le_refl (b + 1)), List.take_take,
    Nat.min_eq_left (by omega), chainKey_take c.cfg.salt c.cfg.blockSize ids le_rfl]

theorem freshBlocks_keys : (c.freshBlocks nbytes ids len nLayers fetch).map Prod.fst =
    (c.chainKeys (ids.take len)).filter fun key => !c.pool.contains key := by
  rw [chainKeys_take, freshBlocks, List.filter_map, List.map_map]
  rfl

theorem freshBlocks_new : ∀ e ∈ c.freshBlocks nbytes ids len nLayers fetch, c.pool.contains e.1 = false := by
  intro e member
  have key := List.mem_map_of_mem (f := Prod.fst) member
  rw [freshBlocks_keys, List.mem_filter, Bool.not_eq_true'] at key
  exact key.2

theorem mem_freshBlocks_iff {key : UInt64} (inside : key ∈ c.chainKeys (ids.take len)) :
    key ∈ (c.freshBlocks nbytes ids len nLayers fetch).map Prod.fst ↔ c.pool.contains key = false := by
  rw [freshBlocks_keys, List.mem_filter, Bool.not_eq_true']
  exact and_iff_right inside

/-- The fresh blocks are a part of the chain. -/
theorem freshBytes_le : c.freshBytes nbytes ids len nLayers fetch ≤
    ((c.chain nbytes ids len nLayers fetch).map (·.bytes)).sum := by
  have sizes : ∀ keys : List UInt64, ((keys.filterMap (c.blockAt nbytes ids len nLayers fetch)).map (·.bytes)).sum =
      (keys.map (c.bytesAt nbytes ids len nLayers fetch)).sum := by
    intro keys
    induction keys with
    | nil => rfl
    | cons key keys ih =>
      rw [List.filterMap_cons, List.map_cons, List.sum_cons, ← ih, bytesAt]
      cases c.blockAt nbytes ids len nLayers fetch key with
      | none => exact (Nat.zero_add _).symm
      | some b => rw [List.map_cons, List.sum_cons]; rfl
  have part : ((c.freshBlocks nbytes ids len nLayers fetch).map Prod.fst).eraseDups ⊆ c.chainKeys (ids.take len) := by
    intro key member
    rw [List.mem_eraseDups, freshBlocks_keys] at member
    exact List.mem_of_mem_filter member
  obtain ⟨keys, same, sub⟩ := (BlockPool.nodup_eraseDups _).subperm part
  rw [freshBytes, chain, sizes, ← (same.map (c.bytesAt nbytes ids len nLayers fetch)).sum_eq]
  exact (sub.map (c.bytesAt nbytes ids len nLayers fetch)).sum_le_sum fun _ _ => Nat.zero_le _

end

/-- Without a hook the loop returns what the pool holds under the keys, and all of it when no key is absent. -/
theorem matchLoop_found {salt : UInt64} {bs n b : Nat} {ids : List Int} {h : UInt64} {pool : BlockPool V}
    (key : h = chainKey salt bs ids b) :
    let r := (matchLoop none bs ids n b h pool).1
    (∀ (j : Nat) blk, r[j]? = some blk → pool.map.lookup (chainKey salt bs ids (b + j + 1)) = some blk) ∧
      (r.length = n ↔ ∀ j < n, pool.contains (chainKey salt bs ids (b + j + 1)) = true) := by
  induction n generalizing b h pool with
  | zero => exact ⟨by simp [matchLoop], by simp [matchLoop]⟩
  | succ n ih =>
    have next : chainHash h ((ids.drop (b * bs)).take bs) = chainKey salt bs ids (b + 1) := by rw [key]; rfl
    have plain := lookup_no_hook pool (chainKey salt bs ids (b + 1))
    simp only [matchLoop, next]
    cases answer : lookup none pool (chainKey salt bs ids (b + 1)) with
    | mk block pool' =>
      rw [answer] at plain
      obtain ⟨here, map⟩ := plain
      cases block with
      | none =>
        refine ⟨by simp, ?_⟩
        constructor
        · intro length
          cases length
        · intro all
          have there := all 0 (Nat.succ_pos n)
          rw [BlockPool.contains, Nat.add_zero, ← here] at there
          cases there
      | some blk =>
        obtain ⟨found, whole⟩ := @ih (b + 1) (chainKey salt bs ids (b + 1)) pool' rfl
        simp only [BlockPool.contains] at whole ⊢
        rw [show pool'.map = pool.map from map] at found whole
        refine ⟨fun j blk' at_j => ?_, ?_⟩
        · cases j with
          | zero =>
            obtain rfl : blk = blk' := Option.some.inj at_j
            exact here.symm
          | succ j =>
            rw [show b + (j + 1) + 1 = b + 1 + j + 1 by omega]
            exact found j blk' at_j
        · rw [List.length_cons, Nat.add_right_cancel_iff, whole]
          constructor
          · intro all j below
            cases j with
            | zero =>
              rw [Nat.add_zero, ← here]
              rfl
            | succ j =>
              rw [show b + (j + 1) + 1 = b + 1 + j + 1 by omega]
              exact all j (Nat.lt_of_succ_lt_succ below)
          · intro all j below
            rw [show b + 1 + j + 1 = b + (j + 1) + 1 by omega]
            exact all (j + 1) (Nat.succ_lt_succ below)

/-- A match that returns every full block of the prompt, the chain's own, for all tokens but perhaps the last. -/
structure Reuses (chain : List (KVBlock V)) (bs : Nat) (ids : List Int) (m : Match V) : Prop where
  blocks : m.blocks = chain
  full : m.blocks.length = ids.length / bs
  tokens : m.tokens = min (m.blocks.length * bs) (ids.length - 1)

/-- A match without a hook reuses the chain exactly when the pool holds all its keys. -/
theorem reuses_iff {c : PrefixCache V} {ids : List Int} {blockAt : UInt64 → Option (KVBlock V)}
    (content : ∀ key b, c.pool.map.lookup key = some b → blockAt key = some b) :
    Reuses ((c.chainKeys ids).filterMap blockAt) c.cfg.blockSize ids (c.matchIds none ids).1 ↔
      ∀ key ∈ c.chainKeys ids, c.pool.contains key = true := by
  obtain ⟨found, whole⟩ := @matchLoop_found V c.cfg.salt c.cfg.blockSize (ids.length / c.cfg.blockSize) 0 ids _ c.pool rfl
  have all : (∀ j < ids.length / c.cfg.blockSize,
      c.pool.contains (chainKey c.cfg.salt c.cfg.blockSize ids (0 + j + 1)) = true) ↔
      ∀ key ∈ c.chainKeys ids, c.pool.contains key = true := by
    simp only [chainKeys, List.forall_mem_map, List.mem_range, Nat.zero_add]
  rw [← all, ← whole]
  constructor
  · intro reuses
    exact reuses.full
  · intro full
    refine ⟨?_, full, ?_⟩
    · have blocks : (c.chainKeys ids).map blockAt = (c.matchIds none ids).1.blocks.map some := by
        apply List.ext_getElem
        · rw [chainKeys, List.length_map, List.length_map, List.length_range, List.length_map]
          exact full.symm
        · intro j _ below
          rw [List.length_map] at below
          rw [List.getElem_map, List.getElem_map]
          apply content
          simp only [chainKeys, List.getElem_map, List.getElem_range]
          have here := found j _ (List.getElem?_eq_getElem below)
          rwa [Nat.zero_add] at here
      rw [show (c.chainKeys ids).filterMap blockAt = ((c.chainKeys ids).map blockAt).filterMap id by
        rw [List.filterMap_map]; rfl, blocks, List.filterMap_map]
      exact List.filterMap_some.symm
    · show (max 0 (min _ _) : Int).toNat = _
      simp only [matchIds]
      omega

section
variable {s : Setting V} {c : PrefixCache V} {ids : List Int} {len : Nat} {fetch : LayerFetch V}
  (reached : Reachable s c)
  (fits : s.cfg.poolBytes = 0 ∨ ((c.chain s.nbytes ids len s.nLayers fetch).map (·.bytes)).sum ≤ s.cfg.poolBytes)
include reached fits

theorem harvest_room : c.pool.budget = 0 ∨ c.freshBytes s.nbytes ids len s.nLayers fetch ≤ c.pool.budget := by
  rw [(reachable_accounted reached).2.budget]
  exact fits.imp_right freshBytes_le.trans

theorem harvest_holds : BlockPool.Holds (c.bytesAt s.nbytes ids len s.nLayers fetch) c.pool
    (c.freshBlocks s.nbytes ids len s.nLayers fetch) (c.harvest s.nbytes ids len s.nLayers fetch).pool := by
  obtain ⟨_, budget, within, log, rep⟩ := reachable_accounted reached
  rw [harvest_pool]
  refine BlockPool.insertAll_holds rep ?_ freshBlocks_new ?_ (harvest_room reached fits)
  · rw [budget]
    exact within
  · intro h b found
    rw [bytesAt, blockAt, found]
    rfl

/-- Which blocks of the chain are there after the harvest: the fresh ones, and the pooled ones that have room behind. -/
theorem harvest_resident : (∀ key ∈ c.chainKeys (ids.take len),
      (c.harvest s.nbytes ids len s.nLayers fetch).pool.contains key = true) ↔
    s.cfg.poolBytes = 0 ∨ ∀ key ∈ c.chainKeys (ids.take len), c.pool.contains key = true →
      c.freshBytes s.nbytes ids len s.nLayers fetch +
        c.pool.bytesSince (c.bytesAt s.nbytes ids len s.nLayers fetch) key ≤ s.cfg.poolBytes := by
  obtain ⟨_, budget, _, log, rep⟩ := reachable_accounted reached
  have resident := (harvest_holds reached fits).resident rep freshBlocks_new (harvest_room reached fits)
  rw [budget] at resident
  constructor
  · intro all
    by_cases unbounded : s.cfg.poolBytes = 0
    · exact .inl unbounded
    · refine .inr fun key inside old => ?_
      exact (((resident key).2 old).mp (all key inside)).resolve_left unbounded
  · intro room key inside
    cases pooled : c.pool.contains key with
    | false => exact (resident key).1 ((mem_freshBlocks_iff inside).mpr pooled)
    | true => exact ((resident key).2 pooled).mpr (room.imp_right fun since => since key inside pooled)

/-- A match right after the harvest of a prompt whose chain fits returns all of it exactly when the budget also holds, for
each of its blocks that was pooled before, the fresh blocks with all that was used since that one. -/
theorem match_harvest_iff :
    Reuses (c.chain s.nbytes ids len s.nLayers fetch) s.cfg.blockSize (ids.take len)
        ((c.harvest s.nbytes ids len s.nLayers fetch).matchIds none (ids.take len)).1 ↔
      s.cfg.poolBytes = 0 ∨ ∀ key ∈ c.chainKeys (ids.take len), c.pool.contains key = true →
        c.freshBytes s.nbytes ids len s.nLayers fetch +
          c.pool.bytesSince (c.bytesAt s.nbytes ids len s.nLayers fetch) key ≤ s.cfg.poolBytes := by
  have cfg := (reachable_accounted reached).1
  rw [← harvest_resident reached fits, ← cfg]
  exact reuses_iff (harvest_holds reached fits).content

end

section witness

/-- Blocks of one token and of two bytes, in a pool for three of them. -/
def narrowSetting : Setting Int where
  cfg := { blockSize := 1, poolBytes := 6 }
  nLayers := 1
  components := 1
  content := fun _ _ => ⟨[0], [0]⟩
  nbytes := fun a => a.cap
  occurring := Set.univ

/-- A row of `len` positions that are all zero. -/
def blankFetch (len : Nat) : LayerFetch Int := fun _ => ([⟨1, len, fun _ _ => 0⟩], [⟨1, len, fun _ _ => 0⟩])

/-- The pool after the prompts `[1]`, `[2]` and `[3]`, in this order. -/
def filledPool : PrefixCache Int :=
  (((new narrowSetting.cfg).harvest narrowSetting.nbytes [1] 1 1 (blankFetch 1)).harvest narrowSetting.nbytes [2] 1 1
    (blankFetch 1)).harvest narrowSetting.nbytes [3] 1 1 (blankFetch 1)

theorem filledPool_reachable : Reachable narrowSetting filledPool := by
  have occurs : ∀ ids, Occurs narrowSetting.occurring narrowSetting.cfg.blockSize ids := fun _ _ _ _ => trivial
  have holds : ∀ ids, FetchHolds narrowSetting.content narrowSetting.nLayers narrowSetting.components ids 1
      (blankFetch 1) := by
    intro ids l _
    refine ⟨rfl, rfl, ?_, ?_, fun t _ => rfl⟩
    · simp [Stored, blankFetch]
    · simp [Stored, blankFetch]
  exact .harvest (.harvest (.harvest .new (occurs _) (holds _)) (occurs _) (holds _)) (occurs _) (holds _)

/-- Prompt `[3, 9]` after these: its first block is the one used last, so both stay. -/
theorem match_harvest_recent : Reuses (filledPool.chain narrowSetting.nbytes [3, 9] 2 1 (blankFetch 2)) 1 [3, 9]
    ((filledPool.harvest narrowSetting.nbytes [3, 9] 2 1 (blankFetch 2)).matchIds none [3, 9]).1 :=
  (match_harvest_iff filledPool_reachable (.inr (by decide))).mpr
    -- over the chain, not over all the keys there are
    (.inr (@of_decide_eq_true _ (List.decidableBAll _ _) (by decide +kernel)))

/-- Prompt `[1, 9]` after these: its two blocks fit in the pool, but its first one was used longest ago and makes room for
the second, so nothing of the prompt is found. -/
theorem match_harvest_loses_first : Reachable narrowSetting filledPool ∧
    FetchHolds narrowSetting.content 1 1 [1, 9] 2 (blankFetch 2) ∧
    ((filledPool.chain narrowSetting.nbytes [1, 9] 2 1 (blankFetch 2)).map (·.bytes)).sum ≤ narrowSetting.cfg.poolBytes ∧
    ((filledPool.harvest narrowSetting.nbytes [1, 9] 2 1 (blankFetch 2)).matchIds none [1, 9]).1.blocks.length = 0 ∧
    ¬ Reuses (filledPool.chain narrowSetting.nbytes [1, 9] 2 1 (blankFetch 2)) 1 [1, 9]
      ((filledPool.harvest narrowSetting.nbytes [1, 9] 2 1 (blankFetch 2)).matchIds none [1, 9]).1 := by
  have none : ((filledPool.harvest narrowSetting.nbytes [1, 9] 2 1 (blankFetch 2)).matchIds none [1, 9]).1.blocks.length =
    0 := by decide +kernel
  refine ⟨filledPool_reachable, ?_, by decide +kernel, none, fun reuses => ?_⟩
  · intro l _
    refine ⟨rfl, rfl, ?_, ?_, fun t _ => rfl⟩
    · simp [Stored, blankFetch]
    · simp [Stored, blankFetch]
  · have full := reuses.full
    rw [none] at full
    cases full

end witness

end PrefixCache

end Mlxforge
