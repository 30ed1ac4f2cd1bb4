import Mlxforge.Cache.RowAppend
import Mlxforge.Model.Decoder

/-!
A forward pass acts on every row by itself. `rowStep` feeds one token to one row, all layers
before the next token; the pass runs the other way round, layer by layer over all rows and
columns, and `forward_spec` says that the two agree.
-/

namespace Mlxforge

variable {V H Q L : Type} [Slot V]

/-- What the cache stores for one slot. -/
def KVQuantConfig.store (q : KVQuantConfig) (x : V) : List V :=
  if q.enabled then
    let p := Slot.quantize q.groupSize.toNat q.bits.toNat x
    [p.1, p.2.1, p.2.2]
  else [x]

theorem slotAt_components (q : KVQuantConfig) (x : KvArray V) (b t : Nat) :
    slotAt (components q x) b t = q.store (x.get b t) := by
  unfold components KVQuantConfig.store quantize
  split <;> rfl

namespace DecoderModel

variable (m : DecoderModel V H Q L) (q : KVQuantConfig)

/-- One token at `pos` through the layers of one row, from `layer` on. -/
def rowLayers (pos : Int) : (layer : Nat) → H → List (List (Entry V)) → H × List (List (Entry V))
  | _, h, [] => (h, [])
  | layer, h, history :: rest =>
    let p := m.projectQkv layer h
    let history := history ++ [⟨q.store (m.ropeK pos p.2.1), q.store p.2.2⟩]
    let a := m.oProj layer (m.sdpa q (m.ropeQ pos p.1) history)
    let (h, rest) := rowLayers pos (layer + 1) (m.residual layer h a) rest
    (h, history :: rest)

/-- Feed one token to a row: a padding column only passes by, a real token yields logits. -/
def rowStep (r : RowHistory V) (token : Int) : RowHistory V × Option L :=
  if 0 < r.pad then ({ r with pad := r.pad - 1, offset := r.offset + 1 }, none)
  else
    let (h, layers) := m.rowLayers q r.offset 0 (m.embed token) r.layers
    (⟨0, r.offset + 1, layers⟩, some (m.lmHead (m.norm h)))

/-- Feed tokens one by one, keeping the logits of the last. -/
def rowRun (s : RowHistory V × Option L) (tokens : List Int) : RowHistory V × Option L :=
  tokens.foldl (fun s token => m.rowStep q s.1 token) s

theorem rowRun_append (s : RowHistory V × Option L) (xs ys : List Int) :
    m.rowRun q s (xs ++ ys) = m.rowRun q (m.rowRun q s xs) ys := List.foldl_append

/-! ### The pass, layer by layer -/

/-- Row `b`'s slots once a chunk is written behind position `n`. -/
def behind (l : Layer V) (n : Nat) (kv : KvArray V × KvArray V) (b t : Nat) : Entry V :=
  if t < n then l.entry b t else chunkEntry q kv b (t - n)

/-- Layer `l`'s attention output on hidden states `x`: column `j` of a row reads the row's slots up to
its own. -/
def attention (c : BatchKVCache V) (x : KvArray H) (l : Nat) : KvArray H :=
  let kv := m.keysValues x l c.offset
  ⟨x.batch, x.cap, fun b j => m.oProj l (m.sdpa c.qcfg (m.queryAt x l c.offset b j)
    (window (behind c.qcfg (c.layers.getD l {}) c.len kv b) (c.padding b).toNat
      (min (c.len + j + 1) (c.len + x.cap))))⟩

/-- The hidden states entering layer `l` of a pass over `tokens`. -/
def hidden (c : BatchKVCache V) (tokens : KvArray Int) : Nat → KvArray H
  | 0 => tokens.map m.embed
  | l + 1 =>
    let x := hidden c tokens l
    ⟨x.batch, x.cap, fun b j => m.residual l (x.get b j) ((m.attention c x l).get b j)⟩

/-- The K/V chunk the pass writes at layer `l`. -/
def chunk (c : BatchKVCache V) (tokens : KvArray Int) (l : Nat) : KvArray V × KvArray V :=
  m.keysValues (m.hidden c tokens l) l c.offset

variable {m} {q} {c : BatchKVCache V} {tokens : KvArray Int}

theorem hidden_shape (c : BatchKVCache V) (tokens : KvArray Int) (l : Nat) :
    (m.hidden c tokens l).batch = tokens.batch ∧ (m.hidden c tokens l).cap = tokens.cap := by
  induction l with
  | zero => exact ⟨rfl, rfl⟩
  | succ l ih => exact ih

/-! ### One layer of the pass -/

omit [Slot V] in
/-- The populated view a write returns reads like the store, over exactly the written positions. -/
theorem fetched {comps : List (KvArray V)} {B cap n : Nat} (stored : Stored B cap comps) (room : n ≤ cap)
    (some : comps ≠ []) :
    seqLen (comps.map (KvArray.sliceSeq · 0 (n : Int))) = n ∧
      ∀ b t, slotAt (comps.map (KvArray.sliceSeq · 0 (n : Int))) b t = slotAt comps b t := by
  have cut : ∀ a ∈ comps, a.sliceSeq 0 (n : Int) = ⟨a.batch, n, a.get⟩ := fun a member =>
    KvArray.sliceSeq_prefix a ((stored a member).2 ▸ room)
  constructor
  · refine seqLen_stored (B := B) ?_ (by simpa using some)
    intro a member
    obtain ⟨x, old, rfl⟩ := List.mem_map.mp member
    rw [cut x old]
    exact ⟨(stored x old).1, rfl⟩
  · intro b t
    exact slotAt_map fun a member => by rw [cut a member]

theorem attended_spec {l l' : Layer V} {B n N : Nat} {kv : KvArray V × KvArray V} {leftPadding : List Int}
    {prevIdx : Int} {b j : Nat} (extended : l.Extended q B n N kv l') (idx : prevIdx = n)
    (nonneg : 0 ≤ leftPadding.getD b 0) :
    attendedEntries prevIdx leftPadding (l'.keys.map (KvArray.sliceSeq · 0 (n + N : Int)))
        (l'.values.map (KvArray.sliceSeq · 0 (n + N : Int))) b j =
      window (behind q l n kv b) (leftPadding.getD b 0).toNat (min (n + j + 1) (n + N)) := by
  obtain ⟨kc, kRoom, keys⟩ := extended.keys.room
  obtain ⟨vc, vRoom, values⟩ := extended.values.room
  have written := extended.written
  have someKeys : l'.keys ≠ [] := by
    intro empty
    have := written.keysCount
    rw [empty] at this
    exact absurd this (Nat.ne_of_lt q.components_pos)
  have someValues : l'.values ≠ [] := by
    intro empty
    have := written.valuesCount
    rw [empty] at this
    exact absurd this (Nat.ne_of_lt q.components_pos)
  obtain ⟨kLen, kReads⟩ := fetched keys kRoom someKeys
  obtain ⟨_, vReads⟩ := fetched values vRoom someValues
  have mask : batchMask prevIdx leftPadding b j = fun t =>
      decide (t < n + j + 1) && decide ((leftPadding.getD b 0).toNat ≤ t) := by
    funext t
    have causal : ((t : Int) ≤ prevIdx + j) = (t < n + j + 1) := by
      apply propext; omega
    have valid : (leftPadding.getD b 0 ≤ (t : Int)) = ((leftPadding.getD b 0).toNat ≤ t) := by
      apply propext; omega
    simp only [batchMask, causal, valid]
  have view : ((n : Int) + N) = ((n + N : Nat) : Int) := by omega
  simp only [attendedEntries, view, kLen, kReads, vReads, mask]
  rw [filter_range_window (fun t => (⟨slotAt l'.keys b t, slotAt l'.values b t⟩ : Entry V))]
  apply window_congr
  intro t _ below
  unfold behind
  by_cases old : t < n
  · rw [if_pos old, extended.keys.old b t old, extended.values.old b t old]
    rfl
  · obtain ⟨i, rfl⟩ := Nat.exists_eq_add_of_le (Nat.not_lt.mp old)
    rw [if_neg old, extended.keys.new b i (by omega), extended.values.new b i (by omega), Nat.add_sub_cancel_left]
    rfl

theorem attentionBatched_spec {layer : Nat} {done : List (Layer V)} (rest : List (Layer V)) {l : Layer V} (wf : c.Wf)
    (batch : tokens.batch = c.batch) (at_layer : done.length = layer)
    (current : c.layers[layer]? = some l) :
    ∃ l', m.attentionBatched (m.hidden c tokens layer) layer c.offset c.idx c.leftPadding
        { c with layers := done ++ l :: rest } =
          .ok (m.attention c (m.hidden c tokens layer) layer, { c with layers := done ++ l' :: rest }) ∧
      l.Extended c.qcfg c.batch c.len tokens.cap (m.chunk c tokens layer) l' := by
  obtain ⟨xBatch, xCap⟩ := hidden_shape (m := m) c tokens layer
  subst at_layer
  obtain ⟨l', ok, extended⟩ := BatchKVCache.append_spec (c := { c with layers := done ++ l :: rest }) (n := c.len)
    (L := tokens.cap) (m.chunk c tokens done.length) wf.step wf.idx_eq rfl
    (wf.ready l (List.mem_of_getElem? current)) (xBatch.trans batch) (xBatch.trans batch) xCap xCap
  have extended : l.Extended c.qcfg c.batch c.len tokens.cap (m.chunk c tokens done.length) l' := extended
  have attended : ∀ b j, attendedEntries c.idx c.leftPadding
      (l'.keys.map (KvArray.sliceSeq · 0 (c.len + tokens.cap : Int)))
      (l'.values.map (KvArray.sliceSeq · 0 (c.len + tokens.cap : Int))) b j =
      window (behind c.qcfg l c.len (m.chunk c tokens done.length) b) (c.padding b).toNat
        (min (c.len + j + 1) (c.len + tokens.cap)) := fun b j =>
    attended_spec extended wf.idx_eq (wf.padding_nonneg b)
  refine ⟨l', ?_, extended⟩
  simp only [attentionBatched]
  rw [show m.keysValues (m.hidden c tokens done.length) done.length c.offset = m.chunk c tokens done.length from rfl,
    ok]
  simp only [ok_bind, attended, attention, List.getD_eq_getElem?_getD, current, xCap]
  rfl

theorem forwardLayers_spec {rest : List (Layer V)} (done : List (Layer V)) (layer : Nat) (wf : c.Wf)
    (batch : tokens.batch = c.batch) (at_layer : done.length = layer) (tail : c.layers.drop layer = rest) :
    ∃ rest', m.forwardLayers c.offset c.idx c.leftPadding rest.length layer (m.hidden c tokens layer)
        { c with layers := done ++ rest } =
          .ok (m.hidden c tokens (layer + rest.length), { c with layers := done ++ rest' }) ∧
      List.Forall₂ (fun p l' => Layer.Extended c.qcfg c.batch c.len tokens.cap p.1 p.2 l')
        (rest.zip ((List.range' layer rest.length).map (m.chunk c tokens))) rest' := by
  induction rest generalizing done layer with
  | nil => exact ⟨[], rfl, .nil⟩
  | cons l rest ih =>
    have current : c.layers[layer]? = some l := by
      have := congrArg (·[0]?) tail
      simpa using this
    have next : c.layers.drop (layer + 1) = rest := by
      rw [← List.tail_drop, tail, List.tail_cons]
    obtain ⟨l', ok, extended⟩ := attentionBatched_spec (m := m) rest wf batch at_layer current
    obtain ⟨rest', tailOk, related⟩ := ih (done ++ [l']) (layer + 1) (by simp [at_layer]) next
    refine ⟨l' :: rest', ?_, ?_⟩
    · rw [List.length_cons, Nat.add_comm rest.length 1, ← Nat.add_assoc, Nat.add_comm 1 rest.length, forwardLayers, ok]
      simp only [ok_bind]
      simpa [hidden] using tailOk
    · rw [List.length_cons, List.range'_succ, List.map_cons, List.zip_cons_cons]
      exact .cons extended related

/-! ### The pass, row by row -/

/-- What row `b` holds at layer `l` once `k` columns of the chunk are written. -/
def history (c : BatchKVCache V) (tokens : KvArray Int) (m : DecoderModel V H Q L) (b k l : Nat) :
    List (Entry V) :=
  window (behind c.qcfg (c.layers.getD l {}) c.len (m.chunk c tokens l) b) (c.padding b).toNat (c.len + k)

theorem rowLayers_spec (layer : Nat) {b k n : Nat} (real : (c.padding b).toNat ≤ c.len + k) (inside : k < tokens.cap) :
    m.rowLayers c.qcfg (c.offset.getD b 0 + k) layer ((m.hidden c tokens layer).get b k)
        ((List.range' layer n).map (history c tokens m b k)) =
      ((m.hidden c tokens (layer + n)).get b k, (List.range' layer n).map (history c tokens m b (k + 1))) := by
  induction n generalizing layer with
  | zero => rfl
  | succ n ih =>
    obtain ⟨_, xCap⟩ := hidden_shape (m := m) c tokens layer
    have grown : history c tokens m b k layer ++
        [⟨c.qcfg.store (m.ropeK (c.offset.getD b 0 + k) (m.projectQkv layer ((m.hidden c tokens layer).get b k)).2.1),
          c.qcfg.store (m.projectQkv layer ((m.hidden c tokens layer).get b k)).2.2⟩] =
        history c tokens m b (k + 1) layer := by
      rw [history, history, ← Nat.add_assoc, window_succ _ real]
      simp [behind, chunkEntry, slotAt_components, chunk, keysValues]
    have out : m.residual layer ((m.hidden c tokens layer).get b k) (m.oProj layer (m.sdpa c.qcfg
        (m.ropeQ (c.offset.getD b 0 + k) (m.projectQkv layer ((m.hidden c tokens layer).get b k)).1)
        (history c tokens m b (k + 1) layer))) = (m.hidden c tokens (layer + 1)).get b k := by
      simp only [hidden, attention, xCap, Nat.min_eq_left (show c.len + k + 1 ≤ c.len + tokens.cap by omega)]
      rfl
    rw [List.range'_succ, List.map_cons, rowLayers]
    simp only [grown, out, ih]
    rw [Nat.add_assoc, Nat.add_comm 1 n, List.map_cons]

theorem append_layers (tokens : KvArray Int) {b k : Nat} (count : c.layers.length = m.nLayers) (wf : c.Wf) :
    ((c.row b).append k (((List.range m.nLayers).map (m.chunk c tokens)).map fun kv =>
      window (chunkEntry c.qcfg kv b) 0 k)).layers = (List.range m.nLayers).map (history c tokens m b k) := by
  have idx := wf.idx_eq
  have pad : (c.row b).pad = (c.padding b).toNat - c.len := by
    simp only [BatchKVCache.row]; omega
  apply List.ext_getElem
  · simp [RowHistory.append, BatchKVCache.row, count]
  · intro l h₁ h₂
    have inside : l < c.layers.length := by simpa [count] using h₂
    have grown : window (behind c.qcfg c.layers[l] c.len (m.chunk c tokens l) b) (c.padding b).toNat (c.len + k) =
        window (c.layers[l].entry b) (c.padding b).toNat c.len ++
          (window (chunkEntry c.qcfg (m.chunk c tokens l) b) 0 k).drop ((c.padding b).toNat - c.len) :=
      window_written (fun t old => by simp [behind, old]) (fun j _ => by simp [behind])
    simp only [RowHistory.append, List.getElem_zipWith, List.getElem_map, List.getElem_range, pad, history,
      List.getD_eq_getElem?_getD, List.getElem?_eq_getElem inside, Option.getD_some, grown]
    simp [BatchKVCache.row, Layer.view]

/-- The chunk as row `b` gets it, layer by layer, up to column `k`. -/
def chunkRow (c : BatchKVCache V) (tokens : KvArray Int) (m : DecoderModel V H Q L) (b k : Nat) :
    List (List (Entry V)) :=
  ((List.range m.nLayers).map (m.chunk c tokens)).map fun kv => window (chunkEntry c.qcfg kv b) 0 k

/-- Feeding the columns of a chunk one by one ends where the pass ends. -/
theorem rowRun_spec {b k : Nat} {s : Option L} (wf : c.Wf) (count : c.layers.length = m.nLayers)
    (fits : k ≤ tokens.cap) :
    m.rowRun c.qcfg (c.row b, s) (window (tokens.get b) 0 k) =
      ((c.row b).append k (chunkRow c tokens m b k),
        if k = 0 then s
        else if (c.row b).pad < k then some (m.lmHead (m.norm ((m.hidden c tokens m.nLayers).get b (k - 1))))
        else none) := by
  have idx := wf.idx_eq
  have pad : (c.row b).pad = (c.padding b).toNat - c.len := by
    simp only [BatchKVCache.row]; omega
  have start : (c.row b).offset = c.offset.getD b 0 := rfl
  induction k with
  | zero =>
    have same : (c.row b).append 0 (chunkRow c tokens m b 0) = c.row b := by
      have layers : ((c.row b).append 0 (chunkRow c tokens m b 0)).layers = (c.row b).layers := by
        apply List.ext_getElem
        · simp [RowHistory.append, chunkRow, BatchKVCache.row, count]
        · intro l _ _
          simp [RowHistory.append, chunkRow]
      simp only [RowHistory.append] at layers ⊢
      rw [layers]
      simp
    simp [rowRun, same]
  | succ k ih =>
    have ih := ih (by omega)
    rw [window_succ _ (Nat.zero_le k), rowRun_append, ih]
    simp only [rowRun, List.foldl_cons, List.foldl_nil, rowStep, if_neg (Nat.succ_ne_zero k), Nat.add_sub_cancel]
    by_cases padded : 0 < (c.row b).pad - k
    · -- a padding column: nothing of the chunk is shown yet
      have hidden : ∀ j, j ≤ (c.row b).pad → ∀ es : List (Entry V), es.length = j →
          es.drop (c.row b).pad = [] := by
        intro j le es length
        rw [List.drop_eq_nil_iff]
        omega
      have layers : ∀ j, j ≤ (c.row b).pad →
          ((c.row b).append j (chunkRow c tokens m b j)).layers = (c.row b).layers := by
        intro j le
        apply List.ext_getElem
        · simp [RowHistory.append, chunkRow, BatchKVCache.row, count]
        · intro l _ _
          simp [RowHistory.append, chunkRow, le]
      have before := layers k (by omega)
      have after := layers (k + 1) (by omega)
      rw [if_pos (by simpa [RowHistory.append] using padded), if_neg (by omega)]
      simp only [RowHistory.append] at before after ⊢
      rw [before, after]
      simp only [Nat.cast_add, Nat.cast_one, Nat.sub_sub, Int.add_assoc]
    · have real : (c.padding b).toNat ≤ c.len + k := by omega
      have layers := append_layers tokens (b := b) (k := k) count wf
      have layers' := append_layers tokens (b := b) (k := k + 1) count wf
      have pass := rowLayers_spec (m := m) (n := m.nLayers) 0 real (show k < tokens.cap by omega)
      rw [← List.range_eq_range', Nat.zero_add] at pass
      rw [if_neg (by simpa [RowHistory.append] using padded), if_pos (by omega)]
      simp only [RowHistory.append] at layers layers' ⊢
      simp only [chunkRow, layers, layers', start]
      rw [show m.embed (tokens.get b k) = (m.hidden c tokens 0).get b k from rfl, pass]
      simp only [Nat.cast_add, Nat.cast_one, ← Int.add_assoc]
      rw [show (c.row b).pad - (k + 1) = 0 by omega]

/-- A forward pass never throws on a well-formed cache, and feeds every row its own tokens. -/
theorem forward_spec (tokens : KvArray Int) (wf : c.Wf) (count : c.layers.length = m.nLayers) (batch : tokens.batch = c.batch)
    (some_columns : 0 < tokens.cap) :
    ∃ logits c', m.forward tokens c = .ok (logits, c') ∧ c'.Wf ∧ c'.Stocked ∧
      logits.batch = c.batch ∧ logits.cap = tokens.cap ∧
      c'.batch = c.batch ∧ c'.layers.length = c.layers.length ∧ c'.qcfg = c.qcfg ∧
      c'.idx = c.idx + tokens.cap ∧ c'.leftPadding = c.leftPadding ∧
      ∀ b < c.batch, ∀ s, m.rowRun c.qcfg (c.row b, s) (window (tokens.get b) 0 tokens.cap) =
        (c'.row b, if (c.row b).pad < tokens.cap then some (logits.get b (tokens.cap - 1)) else none) := by
  obtain ⟨layers, ok, extended⟩ := forwardLayers_spec (m := m) [] 0 wf batch rfl List.drop_zero
  rw [← List.range_eq_range', count] at extended
  rw [Nat.zero_add, count] at ok
  obtain ⟨wf', stocked, appended⟩ := BatchKVCache.advance_spec
    ((List.range m.nLayers).map (m.chunk c tokens)) wf (by simp [count]) extended
  obtain ⟨hBatch, hCap⟩ := hidden_shape (m := m) c tokens m.nLayers
  refine ⟨((m.hidden c tokens m.nLayers).map m.norm).map m.lmHead, _, ?_, wf', stocked, hBatch.trans batch, hCap,
    rfl, ?_, rfl, rfl, rfl, ?_⟩
  · simp only [forward]
    rw [show m.forwardLayers c.offset c.idx c.leftPadding m.nLayers 0 (tokens.map m.embed) c = _ from ok]
    rfl
  · have zipped := extended.length_eq
    simp only [List.length_zip, List.length_map, List.length_range, count, Nat.min_self] at zipped
    simp only [BatchKVCache.advance]
    rw [← zipped, count]
  · intro b inside s
    rw [rowRun_spec wf count le_rfl, appended b inside, if_neg (by omega)]
    rfl

end DecoderModel

end Mlxforge
