import Mlxforge.Cache.KvCache
import Mlxforge.Model.RowForward

/-!
The forward pass of one sequence, with or without a cache. It computes what the batched pass computes for a batch of one
unpadded row, whatever the storage of the two caches looks like.
-/

namespace Mlxforge

variable {V H Q L : Type}

/-- `mask_mode`: "causal" aligns the last query with the last key, "" keeps every key. -/
def maskMode (causal : Bool) (nQuery nKeys j k : Nat) : Bool := !causal || decide ((k : Int) ≤ (nKeys : Int) - nQuery + j)

/-- The slots that query column `j` of `nQuery` attends to. -/
def modeEntries (causal : Bool) (nQuery : Nat) (keys values : List (KvArray V)) (b j : Nat) : List (Entry V) :=
  ((List.range (seqLen keys)).filter (maskMode causal nQuery (seqLen keys) j)).map fun t =>
    ⟨slotAt keys b t, slotAt values b t⟩

namespace DecoderModel

variable (m : DecoderModel V H Q L) [Slot V]

/-- The K and V that `sdpa_with_cache` attends over, and their storage; without a cache the chunk itself. -/
def appendSingle (cache : Option (KVCache V)) (layer : Nat) (k v : KvArray V) :
    Except Fault (Option (KVCache V) × KVQuantConfig × List (KvArray V) × List (KvArray V)) :=
  match cache with
  | some c => do
    let (c, (keys, values)) ← c.append layer k v
    return (some c, c.qcfg, keys, values)
  | none => .ok (none, {}, [k], [v])

/-- `attention`: one offset for all columns of the chunk. -/
def attentionSingle (x : KvArray H) (layer : Nat) (offset : Int) (cache : Option (KVCache V)) :
    Except Fault (KvArray H × Option (KVCache V)) := do
  let offsets := List.replicate x.batch offset
  let kv := m.keysValues x layer offsets
  let (cache, q, keys, values) ← appendSingle cache layer kv.1 kv.2
  let out := fun b j => m.sdpa q (m.queryAt x layer offsets b j) (modeEntries (decide (1 < x.cap)) x.cap keys values b j)
  return (⟨x.batch, x.cap, fun b j => m.oProj layer (out b j)⟩, cache)

def decoderBlock (x : KvArray H) (layer : Nat) (offset : Int) (cache : Option (KVCache V)) :
    Except Fault (KvArray H × Option (KVCache V)) := do
  let (a, cache) ← m.attentionSingle x layer offset cache
  return (⟨x.batch, x.cap, fun b j => m.residual layer (x.get b j) (a.get b j)⟩, cache)

/-- The layer loop of `forward_hidden`, `n` layers from `layer` on. -/
def decoderBlocks (offset : Int) : (n layer : Nat) → KvArray H → Option (KVCache V) →
    Except Fault (KvArray H × Option (KVCache V))
  | 0, _, h, cache => .ok (h, cache)
  | n + 1, layer, h, cache => do
    let (h, cache) ← m.decoderBlock h layer offset cache
    decoderBlocks offset n (layer + 1) h cache

def forwardHidden (tokens : KvArray Int) (cache : Option (KVCache V)) :
    Except Fault (KvArray H × Option (KVCache V)) := do
  let offset := match cache with
    | some c => c.offset
    | none => 0
  let (h, cache) ← m.decoderBlocks offset m.nLayers 0 (tokens.map m.embed) cache
  return (h.map m.norm, cache.map (·.advance tokens.cap))

def forwardSingle (tokens : KvArray Int) (cache : Option (KVCache V)) :
    Except Fault (KvArray L × Option (KVCache V)) := do
  let (h, cache) ← m.forwardHidden tokens cache
  return (h.map m.lmHead, cache)

end DecoderModel

/-! ### One layer -/

namespace KVCache

variable [Slot V] {c : KVCache V} {n N : Nat} {l : Layer V} {done : List (Layer V)}

theorem quantizedWrite (q : KVQuantConfig) (enabled : q.enabled = true) (store : List (KvArray V)) (x : KvArray V) (pos : Int)
    (step : Nat) : quantizeAndUpdate store x q pos step = updateKvComponents store (components q x) pos step := by
  rw [quantizeAndUpdate, components, enabled]
  rfl

/-- One layer's turn: layer `done.length` is extended, the others stay, and attention is handed its populated slots. -/
theorem append_spec (rest : List (Layer V)) (kv : KvArray V × KvArray V) (positive : 0 < c.kStep) (offset : c.offset = n)
    (layers : c.layers = done ++ l :: rest) (ready : l.Ready 1 n c.qcfg.components)
    (exact : c.quantized = false → Exact n l) (kBatch : kv.1.batch = 1) (vBatch : kv.2.batch = 1) (kCap : kv.1.cap = N)
    (vCap : kv.2.cap = N) :
    ∃ l' keys values, c.append done.length kv.1 kv.2 = .ok ({ c with layers := done ++ l' :: rest }, (keys, values)) ∧
      l.Extended c.qcfg 1 n N kv l' ∧ (c.quantized = false → Exact (n + N) l') ∧ Fetched (n + N) l' keys values := by
  have current : c.layers.getD done.length {} = l := by simp [layers]
  have put : ∀ l' : Layer V, c.layers.set done.length l' = done ++ l' :: rest := by simp [layers]
  cases mode : c.quantized with
  | false =>
    obtain ⟨l', ok, extended, exact', fetched⟩ := concatLayer_spec (q := c.qcfg) mode ready (exact mode) kBatch vBatch kCap vCap
    refine ⟨l', l'.keys, l'.values, ?_, extended, fun _ => exact', fetched⟩
    simp only [append, updateAndFetch, mode, current, ok, put, Bool.false_eq_true, if_false]
    rfl
  | true =>
    obtain ⟨l', ok, extended⟩ := Layer.write_spec positive ready kBatch vBatch kCap vCap
    have enabled : c.qcfg.enabled = true := mode
    obtain ⟨_, kRoom, kStored⟩ := extended.keys.room
    obtain ⟨_, vRoom, vStored⟩ := extended.values.room
    have some : ∀ {comps : List (KvArray V)}, comps.length = c.qcfg.components → comps ≠ [] := by
      rintro comps count rfl
      exact absurd count (Nat.ne_of_lt c.qcfg.components_pos)
    obtain ⟨len, keys⟩ := DecoderModel.fetched kStored kRoom (some extended.written.keysCount)
    obtain ⟨_, values⟩ := DecoderModel.fetched vStored vRoom (some extended.written.valuesCount)
    refine ⟨l', _, _, ?_, extended, nofun, ⟨len, keys, values⟩⟩
    simp only [append, updateAndFetchQuantized, mode, current, quantizedWrite c.qcfg enabled, offset, ok, put, Bool.not_true,
      Bool.false_eq_true, if_false, if_true]
    rfl

end KVCache

namespace DecoderModel

variable [Slot V] {m : DecoderModel V H Q L} {c : KVCache V} {tokens : KvArray Int}

/-- The slots a column attends to are the row's own, up to its own. -/
theorem modeEntries_spec {q : KVQuantConfig} {l l' : Layer V} {n N : Nat} {kv : KvArray V × KvArray V}
    {keys values : List (KvArray V)} (extended : l.Extended q 1 n N kv l') (fetched : KVCache.Fetched (n + N) l' keys values)
    (b j : Nat) :
    modeEntries (decide (1 < N)) N keys values b j = window (behind q l n kv b) 0 (min (n + j + 1) (n + N)) := by
  have mask : (List.range (n + N)).filter (maskMode (decide (1 < N)) N (n + N) j) =
      (List.range (n + N)).filter fun t => decide (t < n + j + 1) && decide (0 ≤ t) := by
    apply List.filter_congr
    intro t inside
    have inside := List.mem_range.mp inside
    unfold maskMode
    by_cases many : 1 < N
    · have aligned : ((t : Int) ≤ ((n + N : Nat) : Int) - N + j) ↔ t < n + j + 1 := by omega
      have shown : decide ((t : Int) ≤ ((n + N : Nat) : Int) - N + j) = decide (t < n + j + 1) := decide_eq_decide.mpr aligned
      rw [shown]
      simp [many]
    · have all : t < n + j + 1 := by omega
      simp [many, all]
  rw [modeEntries, fetched.len, mask]
  simp only [fetched.keys, fetched.values]
  rw [filter_range_window (fun t => (⟨slotAt l'.keys b t, slotAt l'.values b t⟩ : Entry V))]
  apply window_congr
  intro t _ below
  unfold behind
  by_cases old : t < n
  · rw [if_pos old, extended.keys.old b t old, extended.values.old b t old]
    rfl
  · obtain ⟨i, rfl⟩ := Nat.exists_eq_add_of_le (Nat.not_lt.mp old)
    rw [if_neg old, extended.keys.new b i (by omega), extended.values.new b i (by omega), Nat.add_sub_cancel_left]
    rfl

theorem attentionSingle_spec {layer : Nat} {done : List (Layer V)} (rest : List (Layer V)) {l : Layer V} (wf : c.Wf)
    (batch : tokens.batch = 1) (at_layer : done.length = layer) (current : c.layers[layer]? = some l) :
    ∃ l', m.attentionSingle (m.hidden c.asBatch tokens layer) layer c.offset (some { c with layers := done ++ l :: rest }) =
          .ok (m.attention c.asBatch (m.hidden c.asBatch tokens layer) layer, some { c with layers := done ++ l' :: rest }) ∧
      l.Extended c.qcfg 1 c.asBatch.len tokens.cap (m.chunk c.asBatch tokens layer) l' ∧
      (c.quantized = false → KVCache.Exact (c.asBatch.len + tokens.cap) l') := by
  obtain ⟨xBatch, xCap⟩ := hidden_shape (m := m) c.asBatch tokens layer
  have rows : (m.hidden c.asBatch tokens layer).batch = 1 := xBatch.trans batch
  subst at_layer
  have member := List.mem_of_getElem? current
  obtain ⟨l', keys, values, ok, extended, exact, fetched⟩ := KVCache.append_spec (c := { c with layers := done ++ l :: rest })
    (n := c.asBatch.len) (N := tokens.cap) rest (m.chunk c.asBatch tokens done.length) wf.asBatch.step wf.asBatch.idx_eq rfl
    (wf.asBatch.ready l member) (fun dense => wf.exact dense l member) rows rows xCap xCap
  have extended : l.Extended c.qcfg 1 c.asBatch.len tokens.cap (m.chunk c.asBatch tokens done.length) l' := extended
  refine ⟨l', ?_, extended, exact⟩
  simp only [attentionSingle, appendSingle, rows]
  rw [show m.keysValues (m.hidden c.asBatch tokens done.length) done.length (List.replicate 1 c.offset) =
    m.chunk c.asBatch tokens done.length from rfl, ok]
  have unpadded : ∀ b, (c.asBatch.padding b).toNat = 0 := by
    intro b
    cases b <;> rfl
  have own : c.asBatch.layers.getD done.length {} = l := by
    rw [List.getD_eq_getElem?_getD, show c.asBatch.layers[done.length]? = some l from current, Option.getD_some]
  simp only [ok_bind, pure_bind, xCap, modeEntries_spec extended fetched, attention, unpadded, own, rows]
  rfl

theorem decoderBlocks_spec {rest : List (Layer V)} (done : List (Layer V)) (layer : Nat) (wf : c.Wf) (batch : tokens.batch = 1)
    (at_layer : done.length = layer) (tail : c.layers.drop layer = rest) :
    ∃ rest', m.decoderBlocks c.offset rest.length layer (m.hidden c.asBatch tokens layer) (some { c with layers := done ++ rest }) =
          .ok (m.hidden c.asBatch tokens (layer + rest.length), some { c with layers := done ++ rest' }) ∧
      List.Forall₂ (fun p l' => Layer.Extended c.qcfg 1 c.asBatch.len tokens.cap p.1 p.2 l')
        (rest.zip ((List.range' layer rest.length).map (m.chunk c.asBatch tokens))) rest' ∧
      (c.quantized = false → ∀ l ∈ rest', KVCache.Exact (c.asBatch.len + tokens.cap) l) := by
  induction rest generalizing done layer with
  | nil => exact ⟨[], rfl, .nil, fun _ => List.forall_mem_nil _⟩
  | cons l rest ih =>
    have current : c.layers[layer]? = some l := by
      have := congrArg (·[0]?) tail
      simpa using this
    have next : c.layers.drop (layer + 1) = rest := by
      rw [← List.tail_drop, tail, List.tail_cons]
    obtain ⟨l', ok, extended, exact⟩ := attentionSingle_spec (m := m) rest wf batch at_layer current
    obtain ⟨rest', tailOk, related, exacts⟩ := ih (done ++ [l']) (layer + 1) (by simp [at_layer]) next
    refine ⟨l' :: rest', ?_, ?_, fun dense => List.forall_mem_cons.mpr ⟨exact dense, exacts dense⟩⟩
    · rw [List.length_cons, Nat.add_comm rest.length 1, ← Nat.add_assoc, Nat.add_comm 1 rest.length, decoderBlocks, decoderBlock,
        ok]
      simp only [ok_bind]
      simpa [hidden] using tailOk
    · rw [List.length_cons, List.range'_succ, List.map_cons, List.zip_cons_cons]
      exact .cons extended related

/-- A pass over one sequence never throws; it feeds the row its tokens one by one, and its last logits are the row's. -/
theorem forwardSingle_spec (wf : c.Wf) (count : c.layers.length = m.nLayers) (batch : tokens.batch = 1) :
    ∃ logits c', m.forwardSingle tokens (some c) = .ok (logits, some c') ∧ c'.Wf ∧ c'.layers.length = c.layers.length ∧
      c'.qcfg = c.qcfg ∧ c'.offset = c.offset + tokens.cap ∧ logits.cap = tokens.cap ∧
      ∀ s, m.rowRun c.qcfg (c.asBatch.row 0, s) (window (tokens.get 0) 0 tokens.cap) =
        (c'.asBatch.row 0, if tokens.cap = 0 then s else some (logits.get 0 (tokens.cap - 1))) := by
  obtain ⟨layers, ok, extended, exact⟩ := decoderBlocks_spec (m := m) [] 0 wf batch rfl List.drop_zero
  rw [← List.range_eq_range', count] at extended
  rw [Nat.zero_add, count] at ok
  obtain ⟨wf', stocked, appended⟩ := BatchKVCache.advance_spec (c := c.asBatch)
    ((List.range m.nLayers).map (m.chunk c.asBatch tokens)) wf.asBatch (by simp [KVCache.asBatch, count]) extended
  obtain ⟨_, hCap⟩ := hidden_shape (m := m) c.asBatch tokens m.nLayers
  have whole : ({ c with layers } : KVCache V).advance tokens.cap =
      { c with layers, offset := c.offset + tokens.cap } := rfl
  have same : (({ c with layers } : KVCache V).advance tokens.cap).asBatch =
      ({ c.asBatch with layers } : BatchKVCache V).advance tokens.cap := rfl
  have len : (({ c with layers } : KVCache V).advance tokens.cap).asBatch.len = c.asBatch.len + tokens.cap := by
    have nonneg : 0 ≤ c.offset := wf.asBatch.idx
    simp only [BatchKVCache.len, KVCache.asBatch, KVCache.advance]
    omega
  refine ⟨((m.hidden c.asBatch tokens m.nLayers).map m.norm).map m.lmHead,
    ({ c with layers } : KVCache V).advance tokens.cap, ?_, ⟨same ▸ wf', fun dense l member => ?_⟩, ?_, rfl, rfl, hCap, fun s => ?_⟩
  · simp only [forwardSingle, forwardHidden]
    rw [show m.decoderBlocks c.offset m.nLayers 0 (tokens.map m.embed) (some c) = _ from ok]
    rfl
  · rw [len]
    exact exact dense l member
  · have zipped := extended.length_eq
    simp only [List.length_zip, List.length_map, List.length_range, count, Nat.min_self] at zipped
    rw [whole, count]
    exact zipped.symm
  · have pad : (c.asBatch.row 0).pad = 0 := by
      have nonneg : 0 ≤ c.offset := wf.asBatch.idx
      simp only [BatchKVCache.row, BatchKVCache.padding, KVCache.asBatch, List.getD_cons_zero]
      omega
    have run := rowRun_spec (m := m) (c := c.asBatch) (b := 0) (k := tokens.cap) (s := s) wf.asBatch
      (by simp [KVCache.asBatch, count]) le_rfl
    rw [show c.asBatch.qcfg = c.qcfg from rfl] at run
    rw [run, same, appended 0 (Nat.lt_succ_self 0), pad]
    by_cases empty : tokens.cap = 0
    · rw [if_pos empty, if_pos empty]
      rfl
    · rw [if_neg empty, if_neg empty, if_pos (Nat.pos_of_ne_zero empty)]
      rfl

/-! ### Without a cache -/

theorem attentionSingle_none {layer : Nat} (batch : tokens.batch = 1) :
    m.attentionSingle (m.hidden (KVCache.new m.nLayers : KVCache V).asBatch tokens layer) layer 0 none =
      .ok (m.attention (KVCache.new m.nLayers : KVCache V).asBatch
        (m.hidden (KVCache.new m.nLayers : KVCache V).asBatch tokens layer) layer, none) := by
  let c : KVCache V := .new m.nLayers
  obtain ⟨xBatch, xCap⟩ := hidden_shape (m := m) c.asBatch tokens layer
  have rows : (m.hidden c.asBatch tokens layer).batch = 1 := xBatch.trans batch
  obtain ⟨l', ok, extended, -, fetched⟩ := @KVCache.concatLayer_spec V {} 0 tokens.cap {}
    (m.chunk c.asBatch tokens layer) _ rfl (.inl ⟨⟨rfl, rfl⟩, rfl⟩) ⟨stored_nil _ _, stored_nil _ _⟩ rows rows xCap xCap
  obtain rfl := Except.ok.inj ok
  have unpadded : ∀ b, (c.asBatch.padding b).toNat = 0 := by
    intro b
    cases b <;> rfl
  have blank : c.asBatch.layers.getD layer {} = {} := by
    rw [List.getD_eq_getElem?_getD]
    show (List.replicate m.nLayers ({} : Layer V))[layer]?.getD {} = {}
    rw [List.getElem?_replicate]
    split <;> rfl
  have read := modeEntries_spec extended fetched
  change m.attentionSingle (m.hidden c.asBatch tokens layer) layer 0 none =
    .ok (m.attention c.asBatch (m.hidden c.asBatch tokens layer) layer, none)
  simp only [attentionSingle, appendSingle, ok_bind, rows, xCap, attention, unpadded, blank]
  rw [show m.keysValues (m.hidden c.asBatch tokens layer) layer (List.replicate 1 0) = m.chunk c.asBatch tokens layer from rfl]
  simp only [read]
  rfl

theorem decoderBlocks_none (batch : tokens.batch = 1) (n layer : Nat) :
    m.decoderBlocks 0 n layer (m.hidden (KVCache.new m.nLayers : KVCache V).asBatch tokens layer) none =
      .ok (m.hidden (KVCache.new m.nLayers : KVCache V).asBatch tokens (layer + n), none) := by
  induction n generalizing layer with
  | zero => rfl
  | succ n ih =>
    rw [decoderBlocks, decoderBlock, attentionSingle_none batch]
    simp only [ok_bind, pure_bind]
    rw [Nat.add_comm n 1, ← Nat.add_assoc, ← ih (layer + 1)]
    rfl

/-- Without a cache the pass is the one through a fresh dense cache. -/
theorem forwardHidden_none (batch : tokens.batch = 1) :
    ∃ h c, m.forwardHidden tokens (none : Option (KVCache V)) = .ok (h, none) ∧
      m.forwardHidden tokens (some (KVCache.new m.nLayers)) = .ok (h, some c) := by
  let c : KVCache V := .new m.nLayers
  have wf : c.Wf := KVCache.new_wf m.nLayers {}
  have count : c.layers.length = m.nLayers := List.length_replicate
  obtain ⟨layers, ok, -, -⟩ := decoderBlocks_spec (m := m) [] 0 wf batch rfl List.drop_zero
  rw [Nat.zero_add, count] at ok
  have bare := decoderBlocks_none (m := m) (V := V) batch m.nLayers 0
  rw [Nat.zero_add] at bare
  refine ⟨(m.hidden c.asBatch tokens m.nLayers).map m.norm, ({ c with layers } : KVCache V).advance tokens.cap, ?_, ?_⟩
  · simp only [forwardHidden]
    rw [show m.decoderBlocks 0 m.nLayers 0 (tokens.map m.embed) (none : Option (KVCache V)) = _ from bare]
    rfl
  · simp only [forwardHidden]
    rw [show m.decoderBlocks (KVCache.new m.nLayers : KVCache V).offset m.nLayers 0 (tokens.map m.embed)
      (some (KVCache.new m.nLayers)) = _ from ok]
    rfl

end DecoderModel

end Mlxforge
