import Mlxforge.Cache.RowHistory

/-! Caches that start from K/V computed elsewhere: pooled blocks, or one prefilled sequence. -/

namespace Mlxforge

variable {V : Type}

namespace KVBlock

def entry (b : KVBlock V) (l t : Nat) : Entry V :=
  ⟨slotAt (b.k.getD l []) 0 t, slotAt (b.v.getD l []) 0 t⟩

/-- The `bs` entries a block holds for layer `l`. -/
def entries (b : KVBlock V) (bs l : Nat) : List (Entry V) := window (b.entry l) 0 bs

/-- A block of the engine's storage layout: `m` components of `bs` positions everywhere. -/
structure Shaped (bs nLayers m : Nat) (b : KVBlock V) : Prop where
  keysCount : ∀ l < nLayers, (b.k.getD l []).length = m
  valuesCount : ∀ l < nLayers, (b.v.getD l []).length = m
  keys : ∀ l < nLayers, Stored 1 bs (b.k.getD l [])
  values : ∀ l < nLayers, Stored 1 bs (b.v.getD l [])

end KVBlock

namespace BatchKVCache

theorem fromSingleSequence_spec {kStep seq : Nat} {kvPerLayer : List (KvArray V × KvArray V)}
    (decodeOffset : Int) [Slot V] (step : 0 < kStep)
    (shape : ∀ kv ∈ kvPerLayer, kv.1.batch = 1 ∧ kv.2.batch = 1 ∧ seq ≤ kv.1.cap ∧ seq ≤ kv.2.cap) :
    let c := fromSingleSequence kStep kvPerLayer seq decodeOffset
    c.Wf ∧ c.Stocked ∧ c.rows =
      [⟨0, decodeOffset, kvPerLayer.map fun kv => window (chunkEntry {} kv 0) 0 seq⟩] := by
  intro c
  have stocked : c.Stocked := by
    intro l member
    obtain ⟨kv, old, rfl⟩ := List.mem_map.mp member
    obtain ⟨kBatch, vBatch, kRoom, vRoom⟩ := shape kv old
    exact ⟨rfl, rfl, ⟨_, kRoom, by simpa [Stored, c, fromSingleSequence] using kBatch⟩,
      ⟨_, vRoom, by simpa [Stored, c, fromSingleSequence] using vBatch⟩⟩
  refine ⟨⟨step, Int.natCast_nonneg seq, rfl, rfl, by simp [c, fromSingleSequence], Or.inr stocked⟩,
    stocked, ?_⟩
  have views : c.layers.map (fun l => l.view 0 0 seq) =
      kvPerLayer.map fun kv => window (chunkEntry {} kv 0) 0 seq := by
    rw [show c.layers = kvPerLayer.map fun kv => { keys := [kv.1], values := [kv.2] } from rfl, List.map_map]
    rfl
  rw [← views]
  simp [rows, row, padding, len, c, fromSingleSequence]

/-! ### Pooled blocks -/

/-- Arrays of `n` positions each, concatenated: position `t` is in part `t / n`. -/
theorem foldlM_concatSeq {B n p : Nat} (acc : KvArray V) (rest : List (KvArray V)) (positive : 0 < n)
    (batch : acc.batch = B) (cap : acc.cap = p * n) (parts : Stored B n rest) :
    ∃ a : KvArray V, rest.foldlM KvArray.concatSeq acc = .ok a ∧ a.batch = B ∧
      a.cap = (p + rest.length) * n ∧ ∀ b t d, t < a.cap →
        a.get b t = if t < p * n then acc.get b t else (rest.getD (t / n - p) d).get b (t % n) := by
  induction rest generalizing acc p with
  | nil =>
    refine ⟨acc, rfl, batch, by simpa using cap, fun b t d below => ?_⟩
    rw [if_pos (by omega)]
  | cons r rest ih =>
    have rBatch := (parts r (by simp)).1
    have rCap := (parts r (by simp)).2
    have joined := KvArray.concatSeq_ok (batch.trans rBatch.symm)
    obtain ⟨a, ok, aBatch, aCap, reads⟩ := ih (p := p + 1)
      ⟨acc.batch, acc.cap + r.cap, fun b t => if t < acc.cap then acc.get b t else r.get b (t - acc.cap)⟩
      batch (by simp only [cap, rCap, Nat.add_mul, Nat.one_mul])
      fun x hx => parts x (by simp [hx])
    refine ⟨a, ?_, aBatch, by rw [aCap, List.length_cons]; ring_nf, fun b t d below => ?_⟩
    · rw [List.foldlM_cons, joined]
      exact ok
    · rw [reads b t d below]
      have next : (p + 1) * n = p * n + n := Nat.succ_mul p n
      by_cases old : t < p * n
      · rw [if_pos (by omega), if_pos old]
        simp only [cap, if_pos old]
      · rw [if_neg old]
        by_cases here : t < (p + 1) * n
        · have quotient : t / n = p := by
            rw [Nat.div_eq_iff positive]; omega
          have remainder : t % n = t - p * n := by
            have := Nat.div_add_mod t n
            rw [quotient, Nat.mul_comm] at this
            omega
          simp only [if_pos here, cap, if_neg old, quotient, Nat.sub_self, remainder,
            List.getD_cons_zero]
        · have above : p + 1 ≤ t / n := (Nat.le_div_iff_mul_le positive).mpr (by omega)
          rw [if_neg here, show t / n - p = t / n - (p + 1) + 1 by omega, List.getD_cons_succ]

theorem concatSeqAll_spec {B n : Nat} {parts : List (KvArray V)} (positive : 0 < n) (some : parts ≠ [])
    (stored : Stored B n parts) :
    ∃ a : KvArray V, concatSeqAll parts = .ok a ∧ a.batch = B ∧ a.cap = parts.length * n ∧
      ∀ b t d, t < a.cap → a.get b t = (parts.getD (t / n) d).get b (t % n) := by
  cases parts with
  | nil => exact absurd rfl some
  | cons r rest =>
    obtain ⟨a, ok, batch, cap, reads⟩ := foldlM_concatSeq (p := 1) r rest positive (stored r (by simp)).1
      (by rw [(stored r (by simp)).2, Nat.one_mul]) fun x hx => stored x (by simp [hx])
    refine ⟨a, ok, batch, by rw [cap, List.length_cons, Nat.add_comm], fun b t d below => ?_⟩
    rw [reads b t d below]
    by_cases here : t < 1 * n
    · rw [if_pos here, Nat.div_eq_of_lt (by omega), Nat.mod_eq_of_lt (by omega), List.getD_cons_zero]
    · have above : 1 ≤ t / n := (Nat.le_div_iff_mul_le positive).mpr (by omega)
      rw [if_neg here, show t / n = t / n - 1 + 1 by omega, List.getD_cons_succ, Nat.add_sub_cancel]

section
variable [Slot V]

/-- One side of one layer: the blocks' components stitched and cut to `len` positions. -/
theorem stitch_spec (parts : List (List (KvArray V))) {bs m len : Nat} (positive : 0 < bs)
    (some : parts ≠ []) (count : ∀ comps ∈ parts, comps.length = m)
    (stored : ∀ comps ∈ parts, Stored 1 bs comps) (short : len ≤ parts.length * bs) :
    ∃ comps, stitch parts m len = .ok comps ∧ comps.length = m ∧ Stored 1 len comps ∧
      ∀ t, t < len → slotAt comps 0 t = slotAt (parts.getD (t / bs) []) 0 (t % bs) := by
  have each : ∀ i ∈ List.range m, ∃ a : KvArray V, (do
      let j ← concatSeqAll (parts.map fun comps => comps.getD i (KvArray.zeros 0 0))
      return j.sliceSeq 0 len : Except Fault (KvArray V)) = .ok a ∧
      (a.batch = 1 ∧ a.cap = len ∧ ∀ t, t < len → a.get 0 t =
        ((parts.getD (t / bs) []).getD i (KvArray.zeros 0 0)).get 0 (t % bs)) := by
    intro i member
    have inside := List.mem_range.mp member
    have column : Stored 1 bs (parts.map fun comps => comps.getD i (KvArray.zeros 0 0)) := by
      intro a ha
      obtain ⟨comps, hc, rfl⟩ := List.mem_map.mp ha
      rw [← List.getElem_eq_getD (h := by rw [count comps hc]; exact inside)]
      exact stored comps hc _ (List.getElem_mem _)
    obtain ⟨j, ok, batch, cap, reads⟩ := concatSeqAll_spec positive (by simpa using some) column
    rw [List.length_map] at cap
    have cut := KvArray.sliceSeq_prefix j (n := len) (by omega)
    refine ⟨_, by rw [ok]; rfl, ?_⟩
    rw [cut]
    refine ⟨batch, rfl, fun t below => ?_⟩
    have quotient : t / bs < parts.length := (Nat.div_lt_iff_lt_mul positive).mpr (by omega)
    simp only [reads 0 t (KvArray.zeros 0 0) (by omega)]
    simp [List.getD_eq_getElem?_getD, quotient]
  obtain ⟨comps, ok, related⟩ := mapM_forall₂ each
  refine ⟨comps, ok, by simpa using related.length_eq.symm, ?_, ?_⟩
  · intro a member
    obtain ⟨i, _, batch, cap, _⟩ := exists_of_forall₂_right related member
    exact ⟨batch, cap⟩
  · intro t below
    have quotient : t / bs < parts.length := (Nat.div_lt_iff_lt_mul positive).mpr (by omega)
    have block : (parts.getD (t / bs) []).length = m := by
      rw [← List.getElem_eq_getD (h := quotient)]
      exact count _ (List.getElem_mem _)
    have reads := map_eq_of_forall₂ (related.imp fun i a h => (h.2.2 t below).symm)
    simp only [slotAt]
    rw [← reads]
    apply List.ext_getElem
    · simp only [List.length_map, List.length_range, block]
    · intro i h₁ h₂
      simp at h₁ h₂
      simp [h₂]

theorem prefixLayer_spec {kStep bs nLayers m len l : Nat} {blocks : List (KVBlock V)}
    (step : 0 < kStep) (positive : 0 < bs) (some : blocks ≠ []) (components : 0 < m)
    (shaped : ∀ b ∈ blocks, b.Shaped bs nLayers m) (inside : l < nLayers)
    (short : len ≤ blocks.length * bs) :
    ∃ layer, prefixLayer kStep blocks len l = .ok layer ∧ layer.Written 1 len m ∧
      layer.view 0 0 len = (blocks.flatMap fun b => b.entries bs l).take len := by
  have nComp : ((blocks.headD ⟨[], [], 0⟩).k.getD l []).length = m := by
    cases blocks with
    | nil => exact absurd rfl some
    | cons b _ => exact (shaped b (by simp)).keysCount l inside
  obtain ⟨kIn, kOk, kLen, kShape, kReads⟩ := stitch_spec (blocks.map fun b => b.k.getD l [])
    positive (by simpa using some)
    (by intro comps hc; obtain ⟨b, hb, rfl⟩ := List.mem_map.mp hc; exact (shaped b hb).keysCount l inside)
    (by intro comps hc; obtain ⟨b, hb, rfl⟩ := List.mem_map.mp hc; exact (shaped b hb).keys l inside)
    (by simpa using short)
  obtain ⟨vIn, vOk, vLen, vShape, vReads⟩ := stitch_spec (blocks.map fun b => b.v.getD l [])
    positive (by simpa using some)
    (by intro comps hc; obtain ⟨b, hb, rfl⟩ := List.mem_map.mp hc; exact (shaped b hb).valuesCount l inside)
    (by intro comps hc; obtain ⟨b, hb, rfl⟩ := List.mem_map.mp hc; exact (shaped b hb).values l inside)
    (by simpa using short)
  have nonempty : ∀ comps : List (KvArray V), comps.length = m → comps ≠ [] := by
    intro comps count empty
    rw [empty] at count
    exact absurd count (Nat.ne_of_lt components)
  obtain ⟨keys, keysOk, keysAppended⟩ := updateKvComponents_spec (n := 0) step (nonempty kIn kLen)
    (Or.inl ⟨rfl, rfl⟩) kShape
  obtain ⟨values, valuesOk, valuesAppended⟩ := updateKvComponents_spec (n := 0) step (nonempty vIn vLen)
    (Or.inl ⟨rfl, rfl⟩) vShape
  obtain ⟨kc, kRoom, kStored⟩ := keysAppended.room
  obtain ⟨vc, vRoom, vStored⟩ := valuesAppended.room
  refine ⟨{ keys, values }, ?_, ⟨keysAppended.count.trans kLen, valuesAppended.count.trans vLen,
    ⟨kc, by omega, kStored⟩, ⟨vc, by omega, vStored⟩⟩, ?_⟩
  · simp only [Nat.cast_zero] at keysOk valuesOk
    simp only [prefixLayer, nComp, kOk, vOk, ok_bind, keysOk, valuesOk]
    rfl
  · let blockAt := fun j => blocks.getD j ⟨[], [], 0⟩
    have spread : blocks.flatMap (fun b => b.entries bs l) =
        window (fun t => (blockAt (t / bs)).entry l (t % bs)) 0 (blocks.length * bs) := by
      rw [window_blocks (fun j o => (blockAt j).entry l o) positive]
      conv_lhs => rw [← window_getD blocks ⟨[], [], 0⟩]
      simp [window, List.flatMap_map, KVBlock.entries, blockAt]
    rw [spread, window_take _ (by omega), Nat.zero_add]
    apply window_congr
    intro t _ below
    have quotient : t / bs < blocks.length := (Nat.div_lt_iff_lt_mul positive).mpr (by omega)
    have keysAt := keysAppended.new 0 t below
    have valuesAt := valuesAppended.new 0 t below
    rw [Nat.zero_add] at keysAt valuesAt
    simp only [Layer.entry, keysAt, valuesAt, kReads t below, vReads t below]
    simp [KVBlock.entry, blockAt, List.getD_eq_getElem?_getD, quotient]

/-- A cache seeded from blocks shows their first `len` positions, at RoPE offset `len`. -/
theorem fromPrefix_spec {kStep bs nLayers len : Nat} {blocks : List (KVBlock V)} (qcfg : KVQuantConfig)
    (step : 0 < kStep) (positive : 0 < bs) (nonempty : 0 < len) (short : len ≤ blocks.length * bs)
    (shaped : ∀ b ∈ blocks, b.Shaped bs nLayers qcfg.components) :
    ∃ c, fromPrefix kStep nLayers blocks len qcfg = .ok c ∧ c.Wf ∧ c.Stocked ∧
      c.rows = [⟨0, len, (List.range nLayers).map fun l =>
        (blocks.flatMap fun b => b.entries bs l).take len⟩] ∧
      c.layers.length = nLayers ∧ c.qcfg = qcfg ∧ c.idx = len ∧ c.leftPadding = [0] := by
  have some : blocks ≠ [] := by
    rintro rfl
    simp at short
    omega
  obtain ⟨layers, ok, related⟩ := mapM_forall₂ fun l (member : l ∈ List.range nLayers) =>
    prefixLayer_spec step positive some qcfg.components_pos shaped (List.mem_range.mp member) short
  let c : BatchKVCache V := { (new kStep nLayers [0] qcfg : BatchKVCache V) with
    layers, idx := (len : Int), offset := [(len : Int)] }
  have stocked : c.Stocked := by
    intro l member
    obtain ⟨_, _, written, _⟩ := exists_of_forall₂_right related member
    exact written
  refine ⟨c, ?_, ⟨step, Int.natCast_nonneg len, rfl, rfl, by simp [c, new], Or.inr stocked⟩, stocked, ?_,
    by simpa [c] using related.length_eq.symm, rfl, rfl, rfl⟩
  · have more : ¬ ((len : Int) ≤ 0 ∨ blocks.length = 0) := by
      have : blocks.length ≠ 0 := fun h => some (List.length_eq_zero_iff.mp h)
      omega
    simp only [fromPrefix, if_neg more, Int.toNat_natCast]
    rw [ok]
    rfl
  · have views := map_eq_of_forall₂ (related.imp fun l layer h => h.2.symm)
    rw [views]
    simp [rows, row, padding, c, new, BatchKVCache.len]

end

end BatchKVCache

end Mlxforge
