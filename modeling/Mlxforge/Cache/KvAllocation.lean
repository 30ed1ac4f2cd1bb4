import Mlxforge.Cache.KvBudget

/-!
# What a batch allocates

After its forward passes every attention layer of a cache has the slots that growth in steps gives it, and every linear
layer one state for each row. The bytes of both are compared with the projection of the admission gate.
-/

namespace Mlxforge

variable {V : Type} {cfg : CacheConfig} {q : KVQuantConfig} {B : Nat}

/-! ### One layer -/

/-- Layer `i` after at least one forward pass. -/
structure FilledLayer (cfg : CacheConfig) (q : KVQuantConfig) (B cap i : Nat) (l : Layer V) : Prop where
  attention : cfg.isLinearLayer i = false →
    l.keys.length = q.components ∧ l.values.length = q.components ∧ Stored B cap l.keys ∧ Stored B cap l.values ∧
      l.convState = none ∧ l.recurState = none
  linear : cfg.isLinearLayer i = true →
    l.keys = [] ∧ l.values = [] ∧ (∃ conv, l.convState = some conv ∧ conv.length = B) ∧
      ∃ recur, l.recurState = some recur ∧ recur.length = B

/-- Layer `i` before a forward pass, with `n` positions written in `cap` slots. -/
def Reached (cfg : CacheConfig) (q : KVQuantConfig) (B n cap i : Nat) (l : Layer V) : Prop :=
  l = {} ∧ n = 0 ∧ cap = 0 ∨ FilledLayer cfg q B cap i l ∧ n ≤ cap

variable {n cap L i : Nat} {l : Layer V} {c : BatchKVCache V} {x : LayerInput V} {done rest : List (Layer V)}

theorem components_ne_nil [Slot V] (q : KVQuantConfig) (a : KvArray V) : components q a ≠ [] := by
  intro empty
  have count := components_length q a
  rw [empty] at count
  exact absurd count (Nat.ne_of_lt q.components_pos)

/-- A linear layer's turn. -/
theorem setLinearState_filled (layers : c.layers = done ++ l :: rest) (linear : cfg.isLinearLayer done.length = true)
    (reached : Reached cfg q B n cap done.length l) (states : x.conv.length = B ∧ x.recur.length = B) (cap' : Nat) :
    ∃ l', c.setLinearState done.length x.conv x.recur = { c with layers := done ++ l' :: rest } ∧
      FilledLayer cfg q B cap' done.length l' := by
  have current : c.layers.getD done.length {} = l := by simp [layers]
  have bare : l.keys = [] ∧ l.values = [] := by
    rcases reached with ⟨rfl, _, _⟩ | ⟨filled, _⟩
    · exact ⟨rfl, rfl⟩
    · obtain ⟨keys, values, _⟩ := filled.linear linear
      exact ⟨keys, values⟩
  refine ⟨{ l with convState := some x.conv, recurState := some x.recur }, ?_, ?_⟩
  · rw [BatchKVCache.setLinearState, current]
    simp [layers]
  · refine ⟨fun attention => absurd linear (by simp [attention]), fun _ => ⟨bare.1, bare.2, ?_, ?_⟩⟩
    · exact ⟨x.conv, rfl, states.1⟩
    · exact ⟨x.recur, rfl, states.2⟩

variable [Slot V]

/-- An attention layer's turn. -/
theorem append_filled (idx : c.idx = n) (step : c.kStep = 256) (setting : c.qcfg = q) (rows : c.batch = B)
    (layers : c.layers = done ++ l :: rest) (attention : cfg.isLinearLayer done.length = false)
    (reached : Reached cfg q B n cap done.length l) (k : x.k.batch = B ∧ x.k.cap = L) (v : x.v.batch = B ∧ x.v.cap = L) :
    ∃ l', (c.append done.length x.k x.v).map (·.1) = .ok { c with layers := done ++ l' :: rest } ∧
      FilledLayer cfg q B (grownCap 256 cap n L) done.length l' := by
  have ready : l.Ready c.batch n c.qcfg.components := by
    rcases reached with ⟨rfl, start, _⟩ | ⟨filled, room⟩
    · exact .inl ⟨⟨rfl, rfl⟩, start⟩
    · obtain ⟨keys, values, keysStored, valuesStored, _, _⟩ := filled.attention attention
      rw [setting, rows]
      exact .inr ⟨keys, values, ⟨cap, room, keysStored⟩, ⟨cap, room, valuesStored⟩⟩
  have positive : 0 < c.kStep := by omega
  obtain ⟨l', wrote, extended⟩ := @Layer.write_spec V _ c.qcfg c.batch n L l (x.k, x.v) c.kStep positive ready
    (by rw [rows]; exact k.1) (by rw [rows]; exact v.1) k.2 v.2
  have current : c.layers.getD done.length {} = l := by simp [layers]
  refine ⟨l', ?_, ⟨fun _ => ?_, fun linear => absurd linear (by simp [attention])⟩⟩
  · rw [BatchKVCache.append_eq, current, idx, wrote]
    simp [layers, Except.map, pure, Except.pure]
  · obtain ⟨⟨keys, ks⟩, keysOk, wrote⟩ := bind_ok wrote
    obtain ⟨⟨values, vs⟩, valuesOk, wrote⟩ := bind_ok wrote
    obtain ⟨rfl, _⟩ := Prod.mk.inj (pure_ok wrote)
    have count := extended.written
    have states : l.convState = none ∧ l.recurState = none := by
      rcases reached with ⟨rfl, _, _⟩ | ⟨filled, _⟩
      · exact ⟨rfl, rfl⟩
      · exact (filled.attention attention).2.2.2.2
    have cur : ∀ store : List (KvArray V), (l = {} → store = []) → (FilledLayer cfg q B cap done.length l →
        store.length = q.components ∧ Stored B cap store) →
        store = [] ∧ n = 0 ∧ cap = 0 ∨ store ≠ [] ∧ n ≤ cap ∧ Stored B cap store := by
      intro store blank used
      rcases reached with ⟨fresh, start, empty⟩ | ⟨filled, room⟩
      · exact .inl ⟨blank fresh, start, empty⟩
      · obtain ⟨count, stored⟩ := used filled
        refine .inr ⟨?_, room, stored⟩
        rintro rfl
        exact absurd count (Nat.ne_of_lt q.components_pos)
    have kStored := components_stored c.qcfg x.k
    have vStored := components_stored c.qcfg x.v
    rw [k.1, k.2] at kStored
    rw [v.1, v.2] at vStored
    rw [step] at keysOk valuesOk
    have keysCap := updateKvComponents_cap (components_ne_nil _ _) kStored
      (cur l.keys (fun fresh => by rw [fresh]) fun filled =>
        ⟨(filled.attention attention).1, (filled.attention attention).2.2.1⟩) keysOk
    have valuesCap := updateKvComponents_cap (components_ne_nil _ _) vStored
      (cur l.values (fun fresh => by rw [fresh]) fun filled =>
        ⟨(filled.attention attention).2.1, (filled.attention attention).2.2.2.1⟩) valuesOk
    rw [setting] at count
    exact ⟨count.keysCount, count.valuesCount, keysCap, valuesCap, states.1, states.2⟩

/-! ### Forward passes -/

/-- The layers from `start` on, each in the state `P` says. -/
def LayersAre (P : Nat → Layer V → Prop) (start : Nat) (ls : List (Layer V)) : Prop :=
  List.Forall₂ P (List.range' start ls.length) ls

theorem forwardLayers_spec (done rest : List (Layer V)) (idx : c.idx = n) (step : c.kStep = 256) (setting : c.qcfg = q) (rows : c.batch = B)
    {xs : List (LayerInput V)} (layers : c.layers = done ++ rest) (count : xs.length = rest.length)
    (k : ∀ x ∈ xs, x.k.batch = B ∧ x.k.cap = L) (v : ∀ x ∈ xs, x.v.batch = B ∧ x.v.cap = L)
    (states : ∀ x ∈ xs, x.conv.length = B ∧ x.recur.length = B)
    (reached : LayersAre (Reached cfg q B n cap) done.length rest) :
    ∃ rest', forwardLayers cfg c done.length xs = .ok { c with layers := done ++ rest' } ∧
      rest'.length = rest.length ∧ LayersAre (FilledLayer cfg q B (grownCap 256 cap n L)) done.length rest' := by
  induction xs generalizing c done rest with
  | nil =>
    obtain rfl := List.length_eq_zero_iff.mp count.symm
    refine ⟨[], ?_, rfl, .nil⟩
    rw [forwardLayers, ← layers]
  | cons x xs ih =>
    cases rest with
    | nil => simp at count
    | cons l rest =>
      rw [LayersAre, List.length_cons, List.range'_succ] at reached
      obtain ⟨head, tail⟩ := List.forall₂_cons.mp reached
      have turn : ∃ l', forwardLayer cfg c done.length x = .ok { c with layers := done ++ l' :: rest } ∧
          FilledLayer cfg q B (grownCap 256 cap n L) done.length l' := by
        rw [forwardLayer]
        cases linear : cfg.isLinearLayer done.length with
        | true =>
          obtain ⟨l', same, filled⟩ := setLinearState_filled layers linear head (states x (by simp)) _
          exact ⟨l', by rw [if_pos rfl, same], filled⟩
        | false =>
          obtain ⟨l', ok, filled⟩ := append_filled idx step setting rows layers linear head (k x (by simp)) (v x (by simp))
          exact ⟨l', by rw [if_neg (by decide), ok], filled⟩
      obtain ⟨l', ok, filled⟩ := turn
      have next : (done ++ [l']).length = done.length + 1 := by simp
      obtain ⟨rest', more, length, others⟩ := ih (c := { c with layers := done ++ l' :: rest }) (done ++ [l'])
        rest idx step setting rows (by simp) (by simpa using count) (fun y hy => k y (by simp [hy]))
        (fun y hy => v y (by simp [hy])) (fun y hy => states y (by simp [hy])) (by rw [next]; exact tail)
      rw [next] at more others
      refine ⟨l' :: rest', ?_, by rw [List.length_cons, length, List.length_cons], ?_⟩
      · rw [forwardLayers, ok, ok_bind, more]
        simp
      · rw [LayersAre, List.length_cons, List.range'_succ]
        exact .cons filled others

/-- A cache before a forward pass, or after some. -/
structure Allotted (cfg : CacheConfig) (q : KVQuantConfig) (B n cap : Nat) (c : BatchKVCache V) : Prop where
  idx : c.idx = n
  step : c.kStep = 256
  setting : c.qcfg = q
  rows : c.batch = B
  layers : c.layers.length = cfg.nLayers

theorem forwardPass_spec (allotted : Allotted cfg q B n cap c) (reached : LayersAre (Reached cfg q B n cap) 0 c.layers)
    (p : Pass V B cfg.nLayers) :
    ∃ c', forwardPass cfg c p = .ok c' ∧ Allotted cfg q B (n + p.len) (grownCap 256 cap n p.len) c' ∧
      LayersAre (FilledLayer cfg q B (grownCap 256 cap n p.len)) 0 c'.layers := by
  obtain ⟨layers', ok, count, filled⟩ := forwardLayers_spec [] _ allotted.idx allotted.step allotted.setting
    allotted.rows (List.nil_append _).symm (p.count.trans allotted.layers.symm) p.k_shape p.v_shape p.states reached
  refine ⟨_, by rw [forwardPass, show (0 : Nat) = ([] : List (Layer V)).length from rfl, ok]; rfl, ?_, filled⟩
  refine ⟨?_, allotted.step, allotted.setting, allotted.rows, count.trans allotted.layers⟩
  simp [BatchKVCache.advance, allotted.idx]

/-- The capacity after forward passes. -/
def passSlots (passes : List (Pass V B cfg.nLayers)) : Nat := slotsAfter 256 (passes.map Pass.len)

theorem forwardPasses_spec (q : KVQuantConfig) {leftPadding : List Int} (rows : leftPadding.length = B)
    (passes : List (Pass V B cfg.nLayers)) :
    ∃ c, forwardPasses cfg q leftPadding passes = .ok c ∧
      Allotted cfg q B (passes.map Pass.len).sum (passSlots passes) c ∧
      (passes = [] ∧ c.layers = List.replicate cfg.nLayers {} ∨
        passes ≠ [] ∧ LayersAre (FilledLayer cfg q B (passSlots passes)) 0 c.layers) := by
  induction passes using List.reverseRecOn with
  | nil =>
    refine ⟨_, rfl, ⟨rfl, rfl, rfl, rows, ?_⟩, .inl ⟨rfl, rfl⟩⟩
    rw [BatchKVCache.new, List.length_replicate]
  | append_singleton passes p ih =>
    obtain ⟨c, ok, allotted, state⟩ := ih
    have reached : LayersAre (Reached cfg q B (passes.map Pass.len).sum (passSlots passes)) 0 c.layers := by
      rcases state with ⟨rfl, blank⟩ | ⟨_, filled⟩
      · rw [LayersAre, blank, List.forall₂_iff_get]
        refine ⟨by simp, fun i _ _ => .inl ⟨by simp, rfl, rfl⟩⟩
      · have room := sum_le_slotsAfter (show 0 < 256 by decide) (passes.map Pass.len)
        exact filled.imp fun i l here => .inr ⟨here, room⟩
    obtain ⟨c', next, allotted', filled'⟩ := forwardPass_spec allotted reached p
    have lens : (passes ++ [p]).map Pass.len = passes.map Pass.len ++ [p.len] := by simp
    have slots : passSlots (passes ++ [p]) = grownCap 256 (passSlots passes) (passes.map Pass.len).sum p.len := by
      rw [passSlots, lens, slotsAfter_concat, ← passSlots]
    refine ⟨c', ?_, ?_, .inr ⟨by simp, ?_⟩⟩
    · rw [forwardPasses, List.foldlM_append, ← forwardPasses, ok, ok_bind, List.foldlM_cons, next, ok_bind, List.foldlM_nil]
      rfl
    · rw [lens, List.sum_append, List.sum_singleton, slots]
      exact allotted'
    · rw [slots]
      exact filled'

/-! ### Bytes -/

theorem rowBytes_length (cfg : CacheConfig) (q : KVQuantConfig) : (cfg.rowBytes q).length = q.components := by
  unfold CacheConfig.rowBytes KVQuantConfig.components
  split <;> rfl

omit [Slot V] in
theorem storeBytes_stored {comps : List (KvArray V)} (count : comps.length = q.components) (stored : Stored B cap comps) :
    cfg.storeBytes q comps = B * cap * (cfg.nKvHeads * (cfg.rowBytes q).sum) := by
  have sized := (rowBytes_length cfg q).trans count.symm
  unfold CacheConfig.storeBytes
  generalize cfg.rowBytes q = widths at sized
  clear count
  induction comps generalizing widths with
  | nil =>
    obtain rfl := List.length_eq_zero_iff.mp sized
    simp
  | cons a comps ih =>
    cases widths with
    | nil => simp at sized
    | cons width widths =>
      obtain ⟨batch, size⟩ := stored a (by simp)
      rw [List.zipWith_cons_cons, List.sum_cons, List.sum_cons,
        ih (fun x hx => stored x (by simp [hx])) widths (by simpa using sized), batch, size]
      ring

omit [Slot V] in
theorem layerBytes_filled (filled : FilledLayer cfg q B cap i l) :
    cfg.layerBytes q l =
      if cfg.isLinearLayer i = true then B * (cfg.convBytes + cfg.recurBytes)
      else B * (cap * (2 * cfg.nKvHeads * (cfg.rowBytes q).sum)) := by
  unfold CacheConfig.layerBytes
  cases linear : cfg.isLinearLayer i with
  | true =>
    obtain ⟨keys, values, ⟨conv, hconv, convRows⟩, recur, hrecur, recurRows⟩ := filled.linear linear
    rw [keys, values, hconv, hrecur, if_pos rfl]
    simp only [CacheConfig.storeBytes, List.zipWith_nil_left, List.sum_nil, Option.getD_some, convRows, recurRows]
    ring
  | false =>
    obtain ⟨keys, values, keysStored, valuesStored, conv, recur⟩ := filled.attention linear
    rw [storeBytes_stored keys keysStored, storeBytes_stored values valuesStored, conv, recur, if_neg (by decide)]
    simp only [Option.getD_none, List.length_nil, Nat.zero_mul]
    ring

theorem sum_ite_countP {α : Type} (p : α → Bool) (a b : Nat) (xs : List α) :
    (xs.map fun x => if p x = true then a else b).sum = xs.countP p * a + xs.countP (fun x => !p x) * b := by
  induction xs with
  | nil => simp
  | cons x xs ih =>
    rw [List.map_cons, List.sum_cons, ih, List.countP_cons, List.countP_cons]
    cases p x
    · simp only [Bool.false_eq_true, if_false, Bool.not_false, if_true]
      ring
    · simp only [if_true, Bool.not_true, Bool.false_eq_true, if_false]
      ring

/-- The bytes for `B` rows of `slots` tokens. -/
def need (cfg : CacheConfig) (q : KVQuantConfig) (B slots : Nat) : Nat := B * (cfg.stateBytes + slots * cfg.tokenBytes q)

omit [Slot V] in
theorem allocatedBytes_filled (count : c.layers.length = cfg.nLayers) (filled : LayersAre (FilledLayer cfg q B cap) 0 c.layers) :
    cfg.allocatedBytes q c = need cfg q B cap := by
  have each : (List.range cfg.nLayers).map (fun i => if cfg.isLinearLayer i = true then
      B * (cfg.convBytes + cfg.recurBytes) else B * (cap * (2 * cfg.nKvHeads * (cfg.rowBytes q).sum))) =
      c.layers.map (cfg.layerBytes q) := by
    rw [← count, List.range_eq_range']
    exact map_eq_of_forall₂ (filled.imp fun i l here => (layerBytes_filled here).symm)
  rw [CacheConfig.allocatedBytes, ← each, sum_ite_countP, need, CacheConfig.stateBytes, CacheConfig.tokenBytes,
    CacheConfig.linearLayers, CacheConfig.kvLayers]
  ring

/-! ### The projection -/

theorem ofInt_natCast (n : Nat) : UInt64.ofInt n = .ofNat n := by
  have whole : ((n : Int) % 2 ^ 64).toNat = n % 2 ^ 64 := by omega
  rw [UInt64.ofInt, whole, UInt64.ofNat_mod_size]

theorem toNat_ofInt (i : Int) : (UInt64.ofInt i).toNat = (i % 2 ^ 64).toNat := by
  have small : (i % 2 ^ 64).toNat < 2 ^ 64 := by omega
  rw [UInt64.ofInt, UInt64.toNat_ofNat_of_lt' small]

theorem kvLayerCount_eq (cfg : CacheConfig) : KVBudget.kvLayerCount cfg = .ofNat cfg.kvLayers := by
  unfold KVBudget.kvLayerCount
  split
  next plain =>
    have all : cfg.kvLayers = cfg.nLayers := by
      have none : ∀ i, (!cfg.isLinearLayer i) = true := fun i => by rw [CacheConfig.isLinearLayer, if_pos plain]; rfl
      rw [CacheConfig.kvLayers, List.countP_eq_length.mpr fun i _ => none i, List.length_range]
    rw [all]
  next => rfl

theorem computeLinearStateBytes_eq (cfg : CacheConfig) : KVBudget.computeLinearStateBytes cfg = .ofNat cfg.stateBytes := by
  unfold KVBudget.computeLinearStateBytes
  split
  next plain =>
    have none : cfg.linearLayers = 0 := by
      rw [CacheConfig.linearLayers, List.countP_eq_zero]
      intro i _
      rw [CacheConfig.isLinearLayer, if_pos plain]
      exact Bool.false_ne_true
    rw [CacheConfig.stateBytes, none, Nat.zero_mul]
    rfl
  next =>
    simp only [CacheConfig.stateBytes, CacheConfig.convBytes, CacheConfig.recurBytes, CacheConfig.convDim,
      CacheConfig.valueDim, UInt64.ofNat_mul, UInt64.ofNat_add]
    rfl

/-- Quantized rows are whole words, so the packed bits fill them. -/
theorem perHeadRowBytes_eq (accepts : q.Accepts cfg.headDim) :
    KVBudget.perHeadRowBytes cfg q = .ofNat (cfg.rowBytes q).sum := by
  unfold KVBudget.perHeadRowBytes CacheConfig.rowBytes
  cases enabled : q.enabled with
  | false =>
    simp only [Bool.not_false, if_true, Bool.false_eq_true, if_false, List.sum_singleton, UInt64.ofNat_mul]
    rfl
  | true =>
    obtain ⟨bits, group, divides⟩ := accepts enabled
    obtain ⟨bs, hb, bsFew⟩ : ∃ b : Nat, q.bits = b ∧ b ≤ 8 := by
      simp only [List.mem_cons, List.not_mem_nil, or_false] at bits
      exact ⟨q.bits.toNat, by omega, by omega⟩
    obtain ⟨g, hg, whole, gFew⟩ : ∃ g : Nat, q.groupSize = g ∧ 32 ∣ g ∧ g ≤ 128 := by
      simp only [List.mem_cons, List.not_mem_nil, or_false] at group
      exact ⟨q.groupSize.toNat, by omega, by omega, by omega⟩
    have words : 32 ∣ cfg.headDim := whole.trans (by rw [hg] at divides; exact Int.natCast_dvd_natCast.mp divides)
    have small := cfg.headDim_int
    have product : cfg.headDim * bs < 2 ^ 64 := by
      calc cfg.headDim * bs ≤ 2 ^ 31 * 8 := Nat.mul_le_mul small.le bsFew
        _ < 2 ^ 64 := by decide
    have packed : cfg.headDim * bs / 32 * 4 = cfg.headDim * bs / 8 := by
      obtain ⟨m, hm⟩ := words
      rw [hm, Nat.mul_assoc, Nat.mul_div_cancel_left _ (by decide)]
      omega
    have bitsWord : UInt64.ofInt q.bits = .ofNat bs := by rw [hb, ofInt_natCast]
    have groupWord : UInt64.ofInt q.groupSize = .ofNat g := by rw [hg, ofInt_natCast]
    have quotient : ∀ {a b : Nat}, a < 2 ^ 64 → b < 2 ^ 64 → UInt64.ofNat a / UInt64.ofNat b = UInt64.ofNat (a / b) := by
      intro a b ha hb'
      apply UInt64.toNat_inj.mp
      have below : a / b < 2 ^ 64 := Nat.lt_of_le_of_lt (Nat.div_le_self a b) ha
      rw [UInt64.toNat_div, UInt64.toNat_ofNat_of_lt' ha, UInt64.toNat_ofNat_of_lt' hb', UInt64.toNat_ofNat_of_lt' below]
    have eight : (8 : UInt64) = .ofNat 8 := rfl
    have two : (2 : UInt64) = .ofNat 2 := rfl
    simp only [Bool.not_true, Bool.false_eq_true, if_false, if_true, List.sum_cons, List.sum_nil, Nat.add_zero]
    rw [bitsWord, groupWord, hb, hg, Int.toNat_natCast, Int.toNat_natCast, packed, ← UInt64.ofNat_mul, eight, two,
      quotient product (by decide), quotient (by omega) (by omega), ← UInt64.ofNat_mul, ← UInt64.ofNat_mul,
      ← UInt64.ofNat_add]
    congr 1
    ring

theorem bytesPerToken_eq (accepts : q.Accepts cfg.headDim) (budget : UInt64) :
    (KVBudget.new cfg budget q).bytesPerToken = .ofNat (cfg.tokenBytes q) := by
  rw [KVBudget.new, kvLayerCount_eq, perHeadRowBytes_eq accepts, CacheConfig.tokenBytes]
  simp only [UInt64.ofNat_mul]
  rfl

/-- The projection in exact arithmetic: the length as a 32-bit number, the bytes as an unsigned 64-bit one. -/
def projection (cfg : CacheConfig) (q : KVQuantConfig) (B len : Nat) : Nat :=
  ((B * (cfg.stateBytes + (len : Int).bmod (2 ^ 32) * cfg.tokenBytes q)) % 2 ^ 64).toNat

theorem projectBytes_toNat (accepts : q.Accepts cfg.headDim) (budget : UInt64) (maxLen maxNew batch : Nat) :
    ((KVBudget.new cfg budget q).projectBytes maxLen maxNew batch).toNat = projection cfg q batch (maxLen + maxNew) := by
  have word : (KVBudget.new cfg budget q).projectBytes maxLen maxNew batch =
      .ofInt (batch * (cfg.stateBytes + ((maxLen + maxNew : Nat) : Int).bmod (2 ^ 32) * cfg.tokenBytes q)) := by
    have sum : ((maxLen + maxNew : Nat) : Int) = (maxLen : Int) + maxNew := Int.natCast_add maxLen maxNew
    have state : (KVBudget.new cfg budget q).linearStateBytes = .ofNat cfg.stateBytes := computeLinearStateBytes_eq cfg
    rw [sum, UInt64.ofInt_mul, UInt64.ofInt_add, UInt64.ofInt_mul, KVBudget.projectBytes, bytesPerToken_eq accepts, state,
      ofInt_natCast, ofInt_natCast, ofInt_natCast]
  unfold projection
  rw [word, toNat_ofInt]

theorem canAdmit_iff (accepts : q.Accepts cfg.headDim) {budget : UInt64} (bounded : budget ≠ 0) (maxLen maxNew batch : Nat) :
    (KVBudget.new cfg budget q).canAdmit maxLen maxNew batch = true ↔
      projection cfg q batch (maxLen + maxNew) ≤ budget.toNat := by
  have limit : (KVBudget.new cfg budget q).budgetBytes = budget := rfl
  rw [KVBudget.canAdmit, limit, if_neg bounded, decide_eq_true_eq, UInt64.le_iff_toNat_le, projectBytes_toNat accepts]

theorem projection_eq_need {len : Nat} (int : len < 2 ^ 31) (word : need cfg q B len < 2 ^ 64) :
    projection cfg q B len = need cfg q B len := by
  have plain : (len : Int).bmod (2 ^ 32) = len := by
    rw [Int.bmod_eq_emod]
    split <;> omega
  have whole : (B * (cfg.stateBytes + (len : Int) * cfg.tokenBytes q) : Int) = (need cfg q B len : Nat) := by
    rw [need]
    push_cast
    ring
  unfold projection
  rw [plain, whole]
  omega

/-- The gate is sound for a budget that is below the projection or has room for the slots that growth in steps leaves.
Where nothing wraps it is sound for every budget only if no slot is left unused. -/
theorem kvBudget_sound_iff {leftPadding : List Int} (accepts : q.Accepts cfg.headDim) (rows : leftPadding.length = B)
    (passes : List (Pass V B cfg.nLayers)) (prefilled : passes ≠ []) {maxLen maxNew : Nat}
    (total : (passes.map Pass.len).sum = maxLen + maxNew) :
    ∃ c, forwardPasses cfg q leftPadding passes = .ok c ∧
      (∀ budget : UInt64, budget ≠ 0 →
        (((KVBudget.new cfg budget q).canAdmit maxLen maxNew B = true → cfg.allocatedBytes q c ≤ budget.toNat) ↔
          budget.toNat < projection cfg q B (maxLen + maxNew) ∨ need cfg q B (passSlots passes) ≤ budget.toNat)) ∧
      (maxLen + maxNew < 2 ^ 31 → need cfg q B (maxLen + maxNew) < 2 ^ 64 →
        ((∀ budget : UInt64, budget ≠ 0 → (KVBudget.new cfg budget q).canAdmit maxLen maxNew B = true →
            cfg.allocatedBytes q c ≤ budget.toNat) ↔
          B * cfg.tokenBytes q = 0 ∨ passSlots passes = maxLen + maxNew)) := by
  obtain ⟨c, ok, allotted, state⟩ := forwardPasses_spec q rows passes
  have filled := (state.resolve_left fun fresh => prefilled fresh.1).2
  have bytes := allocatedBytes_filled allotted.layers filled
  refine ⟨c, ok, ?_, ?_⟩
  · intro budget bounded
    rw [canAdmit_iff accepts bounded, bytes]
    constructor
    · intro sound
      by_cases admitted : projection cfg q B (maxLen + maxNew) ≤ budget.toNat
      · exact .inr (sound admitted)
      · exact .inl (Nat.lt_of_not_le admitted)
    · intro fits admitted
      rcases fits with refused | room
      · exact absurd admitted (Nat.not_le.mpr refused)
      · exact room
  · intro int word
    have projected := projection_eq_need int word
    have filledUp : maxLen + maxNew ≤ passSlots passes := by
      rw [← total]
      exact sum_le_slotsAfter (by decide) _
    constructor
    · intro sound
      by_contra unequal
      obtain ⟨costly, more⟩ := not_or.mp unequal
      have above : need cfg q B (maxLen + maxNew) + B * cfg.tokenBytes q ≤ need cfg q B (passSlots passes) := by
        obtain ⟨extra, split⟩ := Nat.exists_eq_add_of_lt (Nat.lt_of_le_of_ne filledUp (Ne.symm more))
        rw [need, need, split]
        calc B * (cfg.stateBytes + (maxLen + maxNew) * cfg.tokenBytes q) + B * cfg.tokenBytes q
            ≤ B * (cfg.stateBytes + (maxLen + maxNew) * cfg.tokenBytes q) + B * cfg.tokenBytes q +
              B * (extra * cfg.tokenBytes q) := Nat.le_add_right _ _
          _ = B * (cfg.stateBytes + (maxLen + maxNew + extra + 1) * cfg.tokenBytes q) := by ring
      have even : 2 ≤ B * cfg.tokenBytes q := by
        have twice : B * cfg.tokenBytes q = 2 * (B * (cfg.kvLayers * cfg.nKvHeads * (cfg.rowBytes q).sum)) := by
          rw [CacheConfig.tokenBytes]
          ring
        omega
      have fits : max 1 (need cfg q B (maxLen + maxNew)) < 2 ^ 64 := max_lt (by decide) word
      have value : (UInt64.ofNat (max 1 (need cfg q B (maxLen + maxNew)))).toNat = max 1 (need cfg q B (maxLen + maxNew)) :=
        UInt64.toNat_ofNat_of_lt' fits
      have bounded : UInt64.ofNat (max 1 (need cfg q B (maxLen + maxNew))) ≠ 0 := by
        intro zero
        rw [zero] at value
        simp at value
        omega
      have room := sound _ bounded ((canAdmit_iff accepts bounded maxLen maxNew B).mpr (by rw [projected, value]; omega))
      rw [bytes, value] at room
      omega
    · intro even budget bounded admitted
      rw [canAdmit_iff accepts bounded, projected] at admitted
      rw [bytes]
      refine le_trans (le_of_eq ?_) admitted
      rcases even with free | same
      · rw [need, need, Nat.mul_add, Nat.mul_add, Nat.mul_left_comm B, Nat.mul_left_comm B, free, Nat.mul_zero, Nat.mul_zero]
      · rw [same]

/-- 32 KiB for each token. -/
def llama1B : CacheConfig where
  nLayers := 16
  nKvHeads := 8
  headDim := 64
  headDim_int := by decide

theorem kvBudget_sound_llama1B :
    ∃ c, forwardPasses llama1B {} [0] [Pass.zeros Int 1 llama1B.nLayers 256] = .ok c ∧
      ∀ budget : UInt64, budget ≠ 0 → (KVBudget.new llama1B budget {}).canAdmit 200 56 1 = true →
        llama1B.allocatedBytes {} c ≤ budget.toNat := by
  have plain : KVQuantConfig.Accepts {} llama1B.headDim := fun enabled => absurd enabled (by decide)
  obtain ⟨c, ok, _, whole⟩ := @kvBudget_sound_iff Int llama1B {} 1 _ [0] plain rfl
    [Pass.zeros Int 1 llama1B.nLayers 256] (by simp) 200 56 rfl
  exact ⟨c, ok, (whole (by decide) (by decide +kernel)).mpr (.inr rfl)⟩

/-- One token fits in 32 KiB by the projection, and 256 slots are allocated for it. -/
theorem kvBudget_unsound :
    ¬ ∀ (cfg : CacheConfig) (q : KVQuantConfig) (budget : UInt64) (B maxLen maxNew : Nat) (leftPadding : List Int)
      (passes : List (Pass Int B cfg.nLayers)) (c : BatchKVCache Int),
      q.Accepts cfg.headDim → budget ≠ 0 → leftPadding.length = B → (passes.map Pass.len).sum = maxLen + maxNew →
      (KVBudget.new cfg budget q).canAdmit maxLen maxNew B = true → forwardPasses cfg q leftPadding passes = .ok c →
      cfg.allocatedBytes q c ≤ budget.toNat := by
  intro sound
  obtain ⟨c, ok, allotted, state⟩ := @forwardPasses_spec Int llama1B 1 _ {} [0] rfl [Pass.zeros Int 1 llama1B.nLayers 1]
  have filled := (state.resolve_left fun fresh => by simp at fresh).2
  have fits := sound llama1B {} 32768 1 1 0 [0] _ c (fun enabled => absurd enabled (by decide)) (by decide) rfl rfl
    (by decide +kernel) ok
  rw [allocatedBytes_filled allotted.layers filled] at fits
  revert fits
  decide +kernel

end Mlxforge
