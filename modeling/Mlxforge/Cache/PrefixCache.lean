import Mlxforge.Cache.BlockPool
import Mlxforge.Cache.RowSeed
import Mathlib.Data.Set.Function

/-!
Longest-prefix matching over the block pool. A key names the token prefix its block ends; the
invariant is that every block, pooled or spilled, holds the K/V of the prefix its key names.
-/

namespace Mlxforge

variable {V : Type}

structure PrefixCacheConfig where
  enabled : Bool := false
  blockSize : Nat := 256
  poolBytes : Nat := 1073741824
  salt : UInt64 := 0
  spillDir : String := ""
  spillBytes : Nat := 0

/-- The second-level lookup: what it answers may depend on all that was spilled so far. -/
abbrev MissFn (V : Type) := List (UInt64 × KVBlock V) → UInt64 → Option (KVBlock V)

structure PrefixCache (V : Type) where
  cfg : PrefixCacheConfig
  pool : BlockPool V

structure Match (V : Type) where
  blocks : List (KVBlock V)
  tokens : Nat

/-- A row's K and V components, layer by layer, as a harvest caller provides them. -/
abbrev LayerFetch (V : Type) := Nat → List (KvArray V) × List (KvArray V)

namespace PrefixCache

def new (cfg : PrefixCacheConfig) : PrefixCache V := ⟨cfg, { budget := cfg.poolBytes }⟩

/-- A pool lookup that falls back on the miss hook and re-promotes what it revives. -/
def lookup (miss : Option (MissFn V)) (pool : BlockPool V) (hash : UInt64) : Option (KVBlock V) × BlockPool V :=
  match pool.get hash, miss with
  | (none, pool), some onMiss =>
    match onMiss pool.evicted hash with
    | none => (none, pool)
    | some block => (some block, pool.insert hash block)
  | found, _ => found

/-- The loop of `match` from block `b` on: `n` full blocks are left and `h` is the key so far. -/
def matchLoop (miss : Option (MissFn V)) (bs : Nat) (ids : List Int) :
    (n b : Nat) → UInt64 → BlockPool V → List (KVBlock V) × BlockPool V
  | 0, _, _, pool => ([], pool)
  | n + 1, b, h, pool =>
    let h := chainHash h ((ids.drop (b * bs)).take bs)
    match lookup miss pool h with
    | (none, pool) => ([], pool)
    | (some block, pool) =>
      let (blocks, pool) := matchLoop miss bs ids n (b + 1) h pool
      (block :: blocks, pool)

def matchIds (c : PrefixCache V) (miss : Option (MissFn V)) (ids : List Int) : Match V × PrefixCache V :=
  let bs := c.cfg.blockSize
  let (blocks, pool) := matchLoop miss bs ids (ids.length / bs) 0 c.cfg.salt c.pool
  let tokens : Int := max 0 (min ((blocks.length * bs : Nat) : Int) ((ids.length : Int) - 1))
  (⟨blocks, tokens.toNat⟩, { c with pool })

/-- `block_bytes`: the component buffers' sizes, added up. -/
def blockBytes (nbytes : KvArray V → Nat) (b : KVBlock V) : Nat :=
  (b.k.flatten.map nbytes).sum + (b.v.flatten.map nbytes).sum

/-- Block `b` of a row: every layer's components cut to its positions. -/
def sealBlock (nbytes : KvArray V → Nat) (bs nLayers : Nat) (fetch : LayerFetch V) (b : Nat) : KVBlock V :=
  let start := b * bs
  let cut := fun (c : KvArray V) => c.sliceSeq start (start + bs : Nat)
  let block : KVBlock V := {
    k := (List.range nLayers).map fun l => (fetch l).1.map cut
    v := (List.range nLayers).map fun l => (fetch l).2.map cut }
  { block with bytes := blockBytes nbytes block }

def harvest (c : PrefixCache V) (nbytes : KvArray V → Nat) (ids : List Int) (len nLayers : Nat)
    (fetch : LayerFetch V) : PrefixCache V :=
  let bs := c.cfg.blockSize
  let nFull := min len ids.length / bs
  let hash := fun b => chainKey c.cfg.salt bs ids (b + 1)
  let fresh := (List.range nFull).filter fun b => !c.pool.contains (hash b)
  let blocks := fresh.map fun b => (hash b, sealBlock nbytes bs nLayers fetch b)
  { c with pool := blocks.foldl (fun pool e => pool.insert e.1 e.2) c.pool }

end PrefixCache

/-! ### What the blocks hold -/

/-- The K/V content the model computes for the last token of a prefix, layer by layer. -/
abbrev Content (V : Type) := (layer : Nat) → (tokens : List Int) → Entry V

/-- The block holds the K/V of the last `bs` tokens of `tokens`, in the engine's storage layout. -/
structure KVBlock.HoldsSpan (content : Content V) (bs nLayers m : Nat) (tokens : List Int) (b : KVBlock V) :
    Prop where
  shaped : b.Shaped bs nLayers m
  span : ∀ l < nLayers, b.entries bs l =
    window (fun t => content l (tokens.take (t + 1))) (tokens.length - bs) tokens.length

/-- The fetched components cover positions `[0, len)` of `tokens` and hold the K/V of each. -/
def FetchHolds (content : Content V) (nLayers m : Nat) (tokens : List Int) (len : Nat) (fetch : LayerFetch V) : Prop :=
  ∀ l < nLayers, (fetch l).1.length = m ∧ (fetch l).2.length = m ∧
    Stored 1 len (fetch l).1 ∧ Stored 1 len (fetch l).2 ∧
    ∀ t < len, (⟨slotAt (fetch l).1 0 t, slotAt (fetch l).2 0 t⟩ : Entry V) = content l (tokens.take (t + 1))

/-- A revived block is one that was spilled under the key asked for. -/
def HonestMiss (miss : MissFn V) : Prop :=
  ∀ spilled hash block, miss spilled hash = some block →
    ∃ b, (hash, b) ∈ spilled ∧ block.k = b.k ∧ block.v = b.v

section sound
variable {content : Content V} {bs nLayers m : Nat} {salt : UInt64} {occurring : Set (List Int)}
  {nbytes : KvArray V → Nat} {ids : List Int}

theorem KVBlock.HoldsSpan.congr {tokens : List Int} {b b' : KVBlock V} (h : b.HoldsSpan content bs nLayers m tokens)
    (k : b'.k = b.k) (v : b'.v = b.v) : b'.HoldsSpan content bs nLayers m tokens := by
  obtain ⟨shaped, span⟩ := h
  refine ⟨⟨?_, ?_, ?_, ?_⟩, fun l inside => ?_⟩
  · exact k ▸ shaped.keysCount
  · exact v ▸ shaped.valuesCount
  · exact k ▸ shaped.keys
  · exact v ▸ shaped.values
  · rw [← span l inside]
    have same : b'.entry l = b.entry l := by
      funext t
      simp only [KVBlock.entry, k, v]
    simp only [KVBlock.entries, same]

/-- A block cut out of a row that holds `ids` holds the block's tokens. -/
theorem sealBlock_holds {len b : Nat} {fetch : LayerFetch V} (holds : FetchHolds content nLayers m ids len fetch)
    (inside : (b + 1) * bs ≤ min len ids.length) :
    (PrefixCache.sealBlock nbytes bs nLayers fetch b).HoldsSpan content bs nLayers m (ids.take ((b + 1) * bs)) := by
  have next : (b + 1) * bs = b * bs + bs := Nat.succ_mul b bs
  have cut : ∀ a : KvArray V, a.cap = len → a.sliceSeq ((b * bs : Nat) : Int) ((b * bs + bs : Nat) : Int) =
      ⟨a.batch, bs, fun r t => a.get r (b * bs + t)⟩ := by
    intro a cap
    simp only [KvArray.sliceSeq, clampIndex_natCast, cap]
    rw [Nat.min_eq_left (by omega), Nat.min_eq_left (by omega), Nat.add_sub_cancel_left]
  have layer : ∀ l < nLayers,
      (PrefixCache.sealBlock nbytes bs nLayers fetch b).k.getD l [] =
        (fetch l).1.map (fun a => a.sliceSeq ((b * bs : Nat) : Int) ((b * bs + bs : Nat) : Int)) ∧
      (PrefixCache.sealBlock nbytes bs nLayers fetch b).v.getD l [] =
        (fetch l).2.map (fun a => a.sliceSeq ((b * bs : Nat) : Int) ((b * bs + bs : Nat) : Int)) := by
    intro l h
    simp [PrefixCache.sealBlock, List.getD_eq_getElem?_getD, h]
  constructor
  · constructor <;> intro l h <;> obtain ⟨kCount, vCount, kStored, vStored, _⟩ := holds l h
    · rw [(layer l h).1, List.length_map, kCount]
    · rw [(layer l h).2, List.length_map, vCount]
    · rw [(layer l h).1]
      exact stored_map kStored fun a batch cap => by rw [cut a cap]; exact ⟨batch, rfl⟩
    · rw [(layer l h).2]
      exact stored_map vStored fun a batch cap => by rw [cut a cap]; exact ⟨batch, rfl⟩
  · intro l h
    obtain ⟨_, _, kStored, vStored, reads⟩ := holds l h
    have length : (ids.take ((b + 1) * bs)).length = bs + b * bs := by
      rw [List.length_take]; omega
    rw [length, Nat.add_sub_cancel_left, Nat.add_comm bs (b * bs)]
    have shifted := window_shift (fun t => content l ((ids.take ((b + 1) * bs)).take (t + 1))) (b * bs) 0 bs
    rw [Nat.zero_add, Nat.add_comm bs (b * bs)] at shifted
    rw [← shifted]
    apply window_congr
    intro t _ below
    rw [List.take_take, Nat.min_eq_left (by omega), Nat.add_comm t (b * bs), ← reads (b * bs + t) (by omega)]
    simp only [KVBlock.entry, (layer l h).1, (layer l h).2]
    rw [slotAt_map fun a ha => by rw [cut a (kStored a ha).2], slotAt_map fun a ha => by rw [cut a (vStored a ha).2]]

/-- `fetch_row_components` of a cache row provides the row's visible history. -/
theorem fetchRowComponents_holds {c : BatchKVCache V} {b len : Nat} (wf : c.Wf) (stocked : c.Stocked)
    (inside : b < c.batch) (fits : c.padding b + len ≤ c.idx)
    (history : ∀ l h, (c.row b).layers[l]? = some h → h.take len = window (fun t => content l (ids.take (t + 1))) 0 len) :
    FetchHolds content c.layers.length c.qcfg.components ids len fun l =>
      c.fetchRowComponents l b (c.padding b) len := by
  intro l hl
  have start := wf.padding_nonneg b
  have idx := wf.idx_eq
  obtain ⟨p, pad⟩ := Int.eq_ofNat_of_zero_le start
  have written := stocked _ (List.getElem_mem hl)
  obtain ⟨kc, kRoom, keys⟩ := written.keysRoom
  obtain ⟨vc, vRoom, values⟩ := written.valuesRoom
  have cut : ∀ (a : KvArray V) cap, c.len ≤ cap → a.batch = c.batch → a.cap = cap →
      a.sliceRow b (p : Int) ((p : Int) + len) = ⟨1, len, fun _ t => a.get b (p + t)⟩ := by
    intro a cap room batch capacity
    have stop : ((p : Int) + len) = ((p + len : Nat) : Int) := by omega
    simp only [KvArray.sliceRow, stop, clampIndex_natCast, capacity, batch]
    rw [Nat.min_eq_left (show p + len ≤ cap by omega), Nat.min_eq_left (show p ≤ cap by omega),
      Nat.add_sub_cancel_left, Nat.min_eq_left (by omega)]
  have layer : c.layers.getD l {} = c.layers[l] := by simp [hl]
  simp only [BatchKVCache.fetchRowComponents, layer, pad]
  refine ⟨by rw [List.length_map, written.keysCount], by rw [List.length_map, written.valuesCount],
    stored_map keys fun a batch cap => by rw [cut a kc kRoom batch cap]; exact ⟨rfl, rfl⟩,
    stored_map values fun a batch cap => by rw [cut a vc vRoom batch cap]; exact ⟨rfl, rfl⟩, fun t below => ?_⟩
  have view : (c.row b).layers[l]? = some (c.layers[l].view b p c.len) := by
    simp [BatchKVCache.row, hl, pad]
  have shown := history l _ view
  rw [Layer.view, window_take _ (by omega)] at shown
  have entry : c.layers[l].entry b (p + t) = content l (ids.take (t + 1)) := by
    have at_t := congrArg (·[t]?) shown
    simpa [below] using at_t
  rw [← entry, Layer.entry]
  rw [slotAt_map fun a ha => by rw [cut a kc kRoom (keys a ha).1 (keys a ha).2],
    slotAt_map fun a ha => by rw [cut a vc vRoom (values a ha).1 (values a ha).2]]

/-- The key of a whole number of blocks. -/
def prefixKey (salt : UInt64) (bs : Nat) (tokens : List Int) : UInt64 := chainKey salt bs tokens (tokens.length / bs)

theorem prefixKey_take {n : Nat} (positive : 0 < bs) (inside : n * bs ≤ ids.length) :
    prefixKey salt bs (ids.take (n * bs)) = chainKey salt bs ids n := by
  rw [prefixKey, List.length_take, Nat.min_eq_left inside, Nat.mul_div_cancel _ positive, chainKey_take _ _ _ le_rfl]

/-- `block` holds the tokens that `hash` is the key of. -/
def Named (content : Content V) (salt : UInt64) (bs nLayers m : Nat) (occurring : Set (List Int)) (hash : UInt64)
    (block : KVBlock V) : Prop :=
  ∃ tokens ∈ occurring, hash = prefixKey salt bs tokens ∧ block.HoldsSpan content bs nLayers m tokens

/-- Every chain of whole blocks of `ids` is among the occurring ones. -/
def Occurs (occurring : Set (List Int)) (bs : Nat) (ids : List Int) : Prop :=
  ∀ n, 0 < n → n * bs ≤ ids.length → ids.take (n * bs) ∈ occurring

/-- Under an injective key, a block named by a chain of `ids` holds that chain's last block. -/
theorem named_span {n : Nat} {block : KVBlock V} (positive : 0 < bs)
    (injective : Set.InjOn (prefixKey salt bs) occurring) (occurs : Occurs occurring bs ids) (some : 0 < n)
    (inside : n * bs ≤ ids.length)
    (named : Named content salt bs nLayers m occurring (chainKey salt bs ids n) block) :
    block.HoldsSpan content bs nLayers m (ids.take (n * bs)) := by
  obtain ⟨tokens, member, key, holds⟩ := named
  rw [← prefixKey_take positive inside] at key
  rw [injective (occurs n some inside) member key]
  exact holds

namespace PrefixCache

theorem lookup_keeps {P : UInt64 → KVBlock V → Prop} {pool : BlockPool V} {miss : Option (MissFn V)} (hash : UInt64)
    (h : pool.Keeps P) (same : ∀ {h b b'}, P h b → b'.k = b.k → b'.v = b.v → P h b')
    (honest : ∀ f, miss = some f → HonestMiss f) :
    (lookup miss pool hash).2.Keeps P ∧ ∀ b, (lookup miss pool hash).1 = some b → P hash b := by
  have found : ∀ b, (pool.get hash).1 = some b → P hash b := fun b => BlockPool.get_holds h
  have keeps := BlockPool.get_keeps h hash
  unfold lookup
  cases answer : pool.get hash with
  | mk block pool' =>
    rw [answer] at found keeps
    cases block with
    | some b => exact ⟨keeps, found⟩
    | none =>
      cases miss with
      | none => exact ⟨keeps, found⟩
      | some onMiss =>
        simp only
        cases revived : onMiss pool'.evicted hash with
        | none => exact ⟨keeps, by simp⟩
        | some b =>
          obtain ⟨b₀, spilled, k, v⟩ := honest onMiss rfl _ _ _ revived
          have holds := same (keeps.spilled _ spilled) k v
          exact ⟨BlockPool.insert_keeps keeps holds, fun b' eq => Option.some.inj eq ▸ holds⟩

theorem lookup_no_hook (pool : BlockPool V) (hash : UInt64) :
    (lookup none pool hash).1 = pool.map.lookup hash ∧ (lookup none pool hash).2.map = pool.map := by
  obtain ⟨block, map, _⟩ := BlockPool.get_eq pool hash
  unfold lookup
  cases answer : pool.get hash with
  | mk block' pool' =>
    rw [answer] at block map
    cases block' <;> exact ⟨block, map⟩

/-- The loop returns the chain's blocks one by one, and without a hook stops at the first absent key. -/
theorem matchLoop_spec {miss : Option (MissFn V)} {n b : Nat} {h : UInt64} {pool : BlockPool V} (positive : 0 < bs)
    (injective : Set.InjOn (prefixKey salt bs) occurring) (occurs : Occurs occurring bs ids)
    (honest : ∀ f, miss = some f → HonestMiss f)
    (keeps : pool.Keeps (Named content salt bs nLayers m occurring)) (key : h = chainKey salt bs ids b)
    (inside : (b + n) * bs ≤ ids.length) :
    let r := matchLoop miss bs ids n b h pool
    r.2.Keeps (Named content salt bs nLayers m occurring) ∧ r.1.length ≤ n ∧
      (∀ (j : Nat) blk, r.1[j]? = some blk → blk.HoldsSpan content bs nLayers m (ids.take ((b + j + 1) * bs))) ∧
      (miss = none → (∀ j < r.1.length, pool.contains (chainKey salt bs ids (b + j + 1)) = true) ∧
        (r.1.length < n → pool.contains (chainKey salt bs ids (b + r.1.length + 1)) = false)) := by
  induction n generalizing b h pool with
  | zero => exact ⟨keeps, le_rfl, by simp [matchLoop], by simp [matchLoop]⟩
  | succ n ih =>
    have next : chainHash h ((ids.drop (b * bs)).take bs) = chainKey salt bs ids (b + 1) := by rw [key]; rfl
    have here : (b + 1) * bs ≤ ids.length := by
      have := Nat.mul_le_mul_right bs (show b + 1 ≤ b + (n + 1) by omega)
      omega
    obtain ⟨keeps', holds⟩ := lookup_keeps (chainKey salt bs ids (b + 1)) keeps
      (fun ⟨tokens, member, name, span⟩ k v => ⟨tokens, member, name, span.congr k v⟩) honest
    have plain := lookup_no_hook pool (chainKey salt bs ids (b + 1))
    simp only [matchLoop, next]
    cases answer : lookup miss pool (chainKey salt bs ids (b + 1)) with
    | mk block pool' =>
      rw [answer] at keeps' holds
      cases block with
      | none =>
        refine ⟨keeps', Nat.zero_le _, by simp, fun noHook => ⟨by simp, fun _ => ?_⟩⟩
        subst noHook
        rw [answer] at plain
        simp [BlockPool.contains, ← plain.1]
      | some blk =>
        obtain ⟨rest, count, spans, maximal⟩ := ih (h := chainKey salt bs ids (b + 1)) keeps' rfl
          (by rw [Nat.add_assoc, Nat.add_comm 1 n]; exact inside)
        refine ⟨rest, Nat.succ_le_succ count, fun j blk' at_j => ?_, fun noHook => ?_⟩
        · cases j with
          | zero =>
            obtain rfl : blk = blk' := by simpa using at_j
            exact named_span positive injective occurs (Nat.succ_pos b) here (holds blk rfl)
          | succ j =>
            have span := spans j blk' (by simpa using at_j)
            rwa [show b + 1 + j + 1 = b + (j + 1) + 1 by omega] at span
        · subst noHook
          rw [answer] at plain
          obtain ⟨resident, absent⟩ := maximal rfl
          have sameMap : pool'.map = pool.map := plain.2
          have sameKeys : ∀ k, pool'.contains k = pool.contains k := fun k => by
            simp only [BlockPool.contains, sameMap]
          refine ⟨fun j below => ?_, fun short => ?_⟩
          · cases j with
            | zero => simp [BlockPool.contains, ← plain.1]
            | succ j =>
              have found := resident j (by simpa using below)
              rwa [sameKeys, show b + 1 + j + 1 = b + (j + 1) + 1 by omega] at found
          · have gone := absent (by simpa using short)
            rw [sameKeys, Nat.add_right_comm b 1, Nat.add_assoc b _ 1] at gone
            exact gone

theorem harvest_keeps {c : PrefixCache V} {len : Nat} {fetch : LayerFetch V} (positive : 0 < c.cfg.blockSize)
    (occurs : Occurs occurring c.cfg.blockSize ids)
    (holds : FetchHolds content nLayers m ids len fetch)
    (keeps : c.pool.Keeps (Named content c.cfg.salt c.cfg.blockSize nLayers m occurring)) :
    (c.harvest nbytes ids len nLayers fetch).pool.Keeps
      (Named content c.cfg.salt c.cfg.blockSize nLayers m occurring) := by
  have insertAll : ∀ (blocks : List (UInt64 × KVBlock V)) (pool : BlockPool V),
      pool.Keeps (Named content c.cfg.salt c.cfg.blockSize nLayers m occurring) →
      (∀ e ∈ blocks, Named content c.cfg.salt c.cfg.blockSize nLayers m occurring e.1 e.2) →
      (blocks.foldl (fun pool e => pool.insert e.1 e.2) pool).Keeps
        (Named content c.cfg.salt c.cfg.blockSize nLayers m occurring) := by
    intro blocks
    induction blocks with
    | nil => exact fun pool h _ => h
    | cons e blocks ih =>
      intro pool h named
      exact ih _ (BlockPool.insert_keeps h (named e (by simp))) fun x hx => named x (by simp [hx])
  apply insertAll _ _ keeps
  intro e member
  obtain ⟨b, fresh, rfl⟩ := List.mem_map.mp member
  have full : b < min len ids.length / c.cfg.blockSize := List.mem_range.mp (List.mem_filter.mp fresh).1
  have inside : (b + 1) * c.cfg.blockSize ≤ min len ids.length :=
    (Nat.le_div_iff_mul_le positive).mp full
  refine ⟨ids.take ((b + 1) * c.cfg.blockSize), occurs _ (Nat.succ_pos b) (by omega), ?_, sealBlock_holds holds inside⟩
  rw [prefixKey_take positive (by omega)]

/-! ### Any sequence of matches and harvests -/

/-- What the calls of one engine run have in common. -/
structure Setting (V : Type) where
  cfg : PrefixCacheConfig
  nLayers : Nat
  components : Nat
  content : Content V
  nbytes : KvArray V → Nat
  occurring : Set (List Int)

inductive Reachable (s : Setting V) : PrefixCache V → Prop where
  | new : Reachable s (.new s.cfg)
  | matchIds {c : PrefixCache V} {miss : Option (MissFn V)} {ids : List Int} (reached : Reachable s c)
      (occurs : Occurs s.occurring s.cfg.blockSize ids) (honest : ∀ f, miss = some f → HonestMiss f) :
      Reachable s (c.matchIds miss ids).2
  | harvest {c : PrefixCache V} {ids : List Int} {len : Nat} {fetch : LayerFetch V} (reached : Reachable s c)
      (occurs : Occurs s.occurring s.cfg.blockSize ids)
      (holds : FetchHolds s.content s.nLayers s.components ids len fetch) :
      Reachable s (c.harvest s.nbytes ids len s.nLayers fetch)

theorem reachable_keeps {s : Setting V} {c : PrefixCache V} (positive : 0 < s.cfg.blockSize)
    (injective : Set.InjOn (prefixKey s.cfg.salt s.cfg.blockSize) s.occurring) (reached : Reachable s c) :
    c.cfg = s.cfg ∧
      c.pool.Keeps (Named s.content s.cfg.salt s.cfg.blockSize s.nLayers s.components s.occurring) := by
  induction reached with
  | new => exact ⟨rfl, by simp [PrefixCache.new], by simp [PrefixCache.new]⟩
  | @matchIds c miss ids _ occurs honest ih =>
    obtain ⟨cfg, keeps⟩ := ih
    have spec := matchLoop_spec (b := 0) (n := ids.length / s.cfg.blockSize) positive injective occurs honest keeps rfl
      (by rw [Nat.zero_add]; exact Nat.div_mul_le_self _ _)
    refine ⟨cfg, ?_⟩
    simp only [PrefixCache.matchIds, cfg]
    exact spec.1
  | @harvest c ids len fetch _ occurs holds ih =>
    obtain ⟨cfg, keeps⟩ := ih
    refine ⟨cfg, ?_⟩
    rw [← cfg] at positive occurs keeps ⊢
    exact harvest_keeps positive occurs holds keeps

/-- A match returns the K/V of the prompt's own blocks from position 0 on, never the whole of a non-empty
prompt, and without a miss hook it stops only at an absent key or at the clamp. -/
theorem match_sound {s : Setting V} {c : PrefixCache V} {miss : Option (MissFn V)} {ids : List Int}
    (positive : 0 < s.cfg.blockSize)
    (injective : Set.InjOn (prefixKey s.cfg.salt s.cfg.blockSize) s.occurring)
    (reached : Reachable s c) (occurs : Occurs s.occurring s.cfg.blockSize ids)
    (honest : ∀ f, miss = some f → HonestMiss f) :
    let r := (c.matchIds miss ids).1
    (∀ (j : Nat) b, r.blocks[j]? = some b → (j + 1) * s.cfg.blockSize ≤ ids.length ∧
      b.Shaped s.cfg.blockSize s.nLayers s.components ∧
      ∀ l < s.nLayers, b.entries s.cfg.blockSize l =
        window (fun t => s.content l (ids.take (t + 1))) (j * s.cfg.blockSize) ((j + 1) * s.cfg.blockSize)) ∧
    (r.tokens : Int) ≤ max 0 ((ids.length : Int) - 1) ∧ r.tokens ≤ r.blocks.length * s.cfg.blockSize ∧
    (miss = none →
      (∀ j < r.blocks.length, c.pool.contains (chainKey s.cfg.salt s.cfg.blockSize ids (j + 1)) = true) ∧
      (r.blocks.length < ids.length / s.cfg.blockSize →
        c.pool.contains (chainKey s.cfg.salt s.cfg.blockSize ids (r.blocks.length + 1)) = false) ∧
      (r.tokens : Int) = max 0 (min ((r.blocks.length * s.cfg.blockSize : Nat) : Int) ((ids.length : Int) - 1))) := by
  obtain ⟨cfg, keeps⟩ := reachable_keeps positive injective reached
  obtain ⟨_, count, spans, maximal⟩ := matchLoop_spec (b := 0) (h := s.cfg.salt)
    (n := ids.length / s.cfg.blockSize) positive injective
    occurs honest keeps rfl (by rw [Nat.zero_add]; exact Nat.div_mul_le_self _ _)
  simp only [matchIds, cfg]
  generalize matchLoop miss s.cfg.blockSize ids (ids.length / s.cfg.blockSize) 0 s.cfg.salt c.pool = r at *
  refine ⟨fun j b at_j => ?_, by omega, by omega, fun noHook => ?_⟩
  · have below : j + 1 ≤ ids.length / s.cfg.blockSize := by
      have := (List.getElem?_eq_some_iff.mp at_j).1
      omega
    have inside := (Nat.le_div_iff_mul_le positive).mp below
    have span := spans j b at_j
    rw [Nat.zero_add] at span
    refine ⟨inside, span.shaped, fun l hl => ?_⟩
    have next : (j + 1) * s.cfg.blockSize = j * s.cfg.blockSize + s.cfg.blockSize := Nat.succ_mul j _
    rw [span.span l hl, List.length_take, Nat.min_eq_left inside, next, Nat.add_sub_cancel]
    apply window_congr
    intro t _ h
    rw [List.take_take, Nat.min_eq_left (by omega)]
  · obtain ⟨resident, absent⟩ := maximal noHook
    simp only [Nat.zero_add] at resident absent
    exact ⟨resident, absent, by omega⟩

section witness

/-- One layer of one number per position, blocks of one token, and the two chains of a two-token prompt. -/
def tinySetting : Setting Int where
  cfg := { blockSize := 1 }
  nLayers := 1
  components := 1
  content := fun _ tokens => ⟨[tokens.sum], [tokens.length]⟩
  nbytes := fun a => 2 * a.cap
  occurring := {[7], [7, 8]}

/-- The row of prompt `[7]`. -/
def tinyFetch : LayerFetch Int := fun _ => ([⟨1, 1, fun _ _ => 7⟩], [⟨1, 1, fun _ _ => 1⟩])

def harvested : PrefixCache Int := (new tinySetting.cfg).harvest tinySetting.nbytes [7] 1 1 tinyFetch

theorem match_sound_harvested : ∃ b, (harvested.matchIds none [7, 8]).1.blocks = [b] ∧ b.entries 1 0 = [⟨[7], [1]⟩] := by
  have injective : Set.InjOn (prefixKey tinySetting.cfg.salt tinySetting.cfg.blockSize) tinySetting.occurring := by
    have differ : prefixKey 0 1 [7] ≠ prefixKey 0 1 [7, 8] := by decide
    rintro a (rfl | rfl) b (rfl | rfl) key
    · rfl
    · exact absurd key differ
    · exact absurd key.symm differ
    · rfl
  have one : Occurs tinySetting.occurring 1 [7] := by
    intro n some inside
    obtain rfl : n = 1 := by simp at inside; omega
    exact Or.inl rfl
  have two : Occurs tinySetting.occurring 1 [7, 8] := by
    intro n some inside
    obtain rfl | rfl : n = 1 ∨ n = 2 := by simp at inside; omega
    · exact Or.inl rfl
    · exact Or.inr rfl
  have holds : FetchHolds tinySetting.content 1 1 [7] 1 tinyFetch := by
    intro l inside
    refine ⟨rfl, rfl, by simp [Stored, tinyFetch], by simp [Stored, tinyFetch], fun t below => ?_⟩
    obtain rfl : t = 0 := by omega
    rfl
  have noHook : ∀ f, (none : Option (MissFn Int)) = some f → HonestMiss f := by simp
  obtain ⟨spans, _⟩ := match_sound (s := tinySetting) (by decide) injective
    (Reachable.harvest Reachable.new one holds) two noHook
  have count : (harvested.matchIds none [7, 8]).1.blocks.length = 1 := by decide
  obtain ⟨b, blocks⟩ := List.length_eq_one_iff.mp count
  refine ⟨b, blocks, ?_⟩
  have first : (harvested.matchIds none [7, 8]).1.blocks[0]? = some b := by rw [blocks]; rfl
  exact (spans 0 b first).2.2 0 (by decide)

/-- The empty prompt: no token is matched, which is more than its length less one. -/
theorem match_empty_prompt : Reachable tinySetting (new tinySetting.cfg) ∧
    Occurs tinySetting.occurring tinySetting.cfg.blockSize [] ∧
    ¬ ((((new tinySetting.cfg : PrefixCache Int).matchIds none []).1.tokens : Int) ≤ (([] : List Int).length : Int) - 1) :=
  ⟨.new, fun n some inside => absurd inside (by simp [tinySetting]; omega), by decide⟩

end witness

end PrefixCache

end sound

end Mlxforge
