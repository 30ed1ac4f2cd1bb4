import Mlxforge.Cache.RowHistory

/-! A forward pass appends its chunk to every row: one write per layer, then `advance`. -/

namespace Mlxforge

variable {V : Type} [Slot V]

namespace Layer

/-- A layer a chunk can be written to: untouched, or written up to `n` already. -/
def Ready (B n m : Nat) (l : Layer V) : Prop := l.Blank ∧ n = 0 ∨ l.Written B n m

/-- `l'` is `l` with the chunk `kv` of `L` columns written behind position `n`. -/
structure Extended (q : KVQuantConfig) (B n L : Nat) (l : Layer V) (kv : KvArray V × KvArray V)
    (l' : Layer V) : Prop where
  keys : Appended B n L l.keys (components q kv.1) l'.keys
  values : Appended B n L l.values (components q kv.2) l'.values

variable {q : KVQuantConfig} {B n L : Nat} {l l' : Layer V} {kv : KvArray V × KvArray V}

theorem Extended.written (h : Extended q B n L l kv l') : l'.Written B (n + L) q.components where
  keysCount := h.keys.count.trans (components_length q kv.1)
  valuesCount := h.values.count.trans (components_length q kv.2)
  keysRoom := h.keys.room
  valuesRoom := h.values.room

theorem Extended.view (h : Extended q B n L l kv l') (b lo : Nat) :
    l'.view b lo (n + L) = l.view b lo n ++ (window (chunkEntry q kv b) 0 L).drop (lo - n) := by
  apply window_written
  · intro t below
    simp only [entry, h.keys.old b t below, h.values.old b t below]
  · intro j below
    simp only [entry, chunkEntry, h.keys.new b j below, h.values.new b j below]

theorem write_spec {step : Nat} (positive : 0 < step) (ready : l.Ready B n q.components)
    (kBatch : kv.1.batch = B) (vBatch : kv.2.batch = B) (kCap : kv.1.cap = L) (vCap : kv.2.cap = L) :
    ∃ l', BatchKVCache.Layer.write (fun store x => updateKvComponents store (components q x) n step)
        l kv.1 kv.2 = .ok (l', (l'.keys.map (KvArray.sliceSeq · 0 (n + L : Int)),
          l'.values.map (KvArray.sliceSeq · 0 (n + L : Int)))) ∧
      Extended q B n L l kv l' := by
  have kStored := components_stored q kv.1
  have vStored := components_stored q kv.2
  rw [kBatch, kCap] at kStored
  rw [vBatch, vCap] at vStored
  have nonempty : ∀ x : KvArray V, components q x ≠ [] := by
    intro x empty
    have := components_length q x
    rw [empty] at this
    exact absurd this (Nat.ne_of_lt q.components_pos)
  have sides : (l.keys = [] ∧ n = 0 ∨ l.keys.length = (components q kv.1).length ∧
        ∃ cap, n ≤ cap ∧ Stored B cap l.keys) ∧
      (l.values = [] ∧ n = 0 ∨ l.values.length = (components q kv.2).length ∧
        ∃ cap, n ≤ cap ∧ Stored B cap l.values) := by
    rw [components_length, components_length]
    rcases ready with ⟨⟨noKeys, noValues⟩, start⟩ | written
    · exact ⟨Or.inl ⟨noKeys, start⟩, Or.inl ⟨noValues, start⟩⟩
    · exact ⟨Or.inr ⟨written.keysCount, written.keysRoom⟩,
        Or.inr ⟨written.valuesCount, written.valuesRoom⟩⟩
  obtain ⟨keys, keysOk, keysAppended⟩ :=
    updateKvComponents_spec positive (nonempty _) sides.1 kStored
  obtain ⟨values, valuesOk, valuesAppended⟩ :=
    updateKvComponents_spec positive (nonempty _) sides.2 vStored
  refine ⟨{ l with keys, values }, ?_, ⟨keysAppended, valuesAppended⟩⟩
  simp only [BatchKVCache.Layer.write, keysOk, valuesOk, ok_bind]
  rfl

end Layer

namespace BatchKVCache

/-- Both storage modes write the chunk's components. -/
theorem append_eq (c : BatchKVCache V) (layer : Nat) (k v : KvArray V) :
    c.append layer k v = (do
      let (l, kv) ← Layer.write (fun store x => updateKvComponents store (components c.qcfg x) c.idx c.kStep)
        (c.layers.getD layer {}) k v
      return ({ c with layers := c.layers.set layer l }, kv)) := by
  unfold append updateAndFetch updateAndFetchQuantized quantized quantizeAndUpdate components
  cases c.qcfg.enabled <;> rfl

/-- One layer's turn in a forward pass: layer `done.length` is extended, the others stay. -/
theorem append_spec {c : BatchKVCache V} {n L : Nat} {done rest : List (Layer V)} {l : Layer V}
    (kv : KvArray V × KvArray V) (positive : 0 < c.kStep) (idx : c.idx = n)
    (layers : c.layers = done ++ l :: rest) (ready : l.Ready c.batch n c.qcfg.components)
    (kBatch : kv.1.batch = c.batch) (vBatch : kv.2.batch = c.batch)
    (kCap : kv.1.cap = L) (vCap : kv.2.cap = L) :
    ∃ l', c.append done.length kv.1 kv.2 = .ok ({ c with layers := done ++ l' :: rest },
        (l'.keys.map (KvArray.sliceSeq · 0 (n + L : Int)),
          l'.values.map (KvArray.sliceSeq · 0 (n + L : Int)))) ∧
      l.Extended c.qcfg c.batch n L kv l' := by
  obtain ⟨l', ok, extended⟩ := Layer.write_spec positive ready kBatch vBatch kCap vCap
  refine ⟨l', ?_, extended⟩
  have current : c.layers.getD done.length {} = l := by simp [layers]
  rw [append_eq, current, idx, ok]
  simp [layers, pure, Except.pure]

/-- Layer by layer, the views of the extended layers are the old views with the chunk behind. -/
theorem extended_views {q : KVQuantConfig} {B n L b lo : Nat} {ls ls' : List (Layer V)}
    {chunks : List (KvArray V × KvArray V)} (count : chunks.length = ls.length)
    (extended : List.Forall₂ (fun p l' => Layer.Extended q B n L p.1 p.2 l') (ls.zip chunks) ls') :
    ls'.map (fun l => l.view b lo (n + L)) =
      List.zipWith (fun h es => h ++ es.drop (lo - n)) (ls.map fun l => l.view b lo n)
        (chunks.map fun kv => window (chunkEntry q kv b) 0 L) := by
  induction ls generalizing chunks ls' with
  | nil =>
    cases extended
    rfl
  | cons l ls ih =>
    cases chunks with
    | nil => simp at count
    | cons kv chunks =>
      rw [List.zip_cons_cons] at extended
      cases extended with
      | cons head tail =>
        simp only [List.map_cons, List.zipWith_cons_cons]
        rw [head.view, ih (by simpa using count) tail]

/-- All layers extended by one chunk each, then `advance`: every row gets its columns. -/
theorem advance_spec {c : BatchKVCache V} {L : Nat} (chunks : List (KvArray V × KvArray V))
    {layers : List (Layer V)} (wf : c.Wf) (count : chunks.length = c.layers.length)
    (extended : List.Forall₂ (fun p l' => Layer.Extended c.qcfg c.batch c.len L p.1 p.2 l')
      (c.layers.zip chunks) layers) :
    let next := ({ c with layers } : BatchKVCache V).advance L
    next.Wf ∧ next.Stocked ∧ ∀ b < c.batch, next.row b =
      (c.row b).append L (chunks.map fun kv => window (chunkEntry c.qcfg kv b) 0 L) := by
  intro next
  have idx : next.idx = c.idx + L := rfl
  have len : next.len = c.len + L := by
    have := wf.idx
    simp only [BatchKVCache.len, idx]
    omega
  have stocked : next.Stocked := by
    intro l' member
    obtain ⟨p, _, h⟩ := exists_of_forall₂_right extended member
    rw [len]
    exact h.written
  refine ⟨⟨wf.step, ?_, ?_, wf.paddings, wf.padding, Or.inr stocked⟩, stocked, ?_⟩
  · rw [idx]
    have := wf.idx
    omega
  · simp [next, advance, wf.offsets]
  · intro b inside
    have start := wf.padding_nonneg b
    have whole := wf.idx
    have padded : (c.padding b).toNat - c.len = (c.padding b - c.idx).toNat := by
      simp only [BatchKVCache.len]; omega
    simp only [row, RowHistory.append, len]
    congr 1
    · simp only [next, advance, padding]
      omega
    · simp [next, advance, wf.offsets, inside]
    · rw [← padded]
      exact extended_views count extended

/-! ### One forward pass -/

/-- The writes of one forward pass, from layer `l` on. -/
def sweep (c : BatchKVCache V) : Nat → List (KvArray V × KvArray V) → Except Fault (BatchKVCache V)
  | _, [] => .ok c
  | l, kv :: rest => do
    let (c, _) ← c.append l kv.1 kv.2
    c.sweep (l + 1) rest

/-- One forward pass over `n` columns: a write per layer, then `advance`. -/
def forward (c : BatchKVCache V) (n : Nat) (chunk : List (KvArray V × KvArray V)) :
    Except Fault (BatchKVCache V) := do
  let c ← c.sweep 0 chunk
  return c.advance n

/-- K and V of one layer for `B` rows and `n` columns. -/
def ChunkShape (B n : Nat) (kv : KvArray V × KvArray V) : Prop :=
  kv.1.batch = B ∧ kv.2.batch = B ∧ kv.1.cap = n ∧ kv.2.cap = n

theorem sweep_spec {c : BatchKVCache V} {n L : Nat} (done : List (Layer V)) {rest : List (Layer V)}
    {chunk : List (KvArray V × KvArray V)} (positive : 0 < c.kStep) (idx : c.idx = n)
    (layers : c.layers = done ++ rest) (count : chunk.length = rest.length)
    (ready : ∀ l ∈ rest, l.Ready c.batch n c.qcfg.components)
    (shape : ∀ kv ∈ chunk, ChunkShape c.batch L kv) :
    ∃ rest', c.sweep done.length chunk = .ok { c with layers := done ++ rest' } ∧
      List.Forall₂ (fun p l' => Layer.Extended c.qcfg c.batch n L p.1 p.2 l') (rest.zip chunk) rest' := by
  induction rest generalizing c done chunk with
  | nil =>
    have none : chunk = [] := List.length_eq_zero_iff.mp count
    subst none
    exact ⟨[], by rw [← layers]; rfl, .nil⟩
  | cons l rest ih =>
    cases chunk with
    | nil => simp at count
    | cons kv chunk =>
      obtain ⟨kBatch, vBatch, kCap, vCap⟩ := shape kv (by simp)
      obtain ⟨l', ok, extended⟩ := append_spec kv positive idx layers (ready l (by simp))
        kBatch vBatch kCap vCap
      obtain ⟨rest', tail, related⟩ := ih (c := { c with layers := done ++ l' :: rest })
        (done ++ [l']) positive idx (by simp) (by simpa using count)
        (fun x hx => ready x (by simp [hx])) fun x hx => shape x (by simp [hx])
      refine ⟨l' :: rest', ?_, .cons extended related⟩
      simp only [sweep, ok, ok_bind]
      simpa using tail

omit [Slot V] in
theorem Wf.ready {c : BatchKVCache V} (wf : c.Wf) :
    ∀ l ∈ c.layers, l.Ready c.batch c.len c.qcfg.components := by
  intro l member
  rcases wf.store with ⟨start, blank⟩ | stocked
  · exact Or.inl ⟨blank l member, by simp [len, start]⟩
  · exact Or.inr (stocked l member)

theorem forward_spec {c : BatchKVCache V} {n : Nat} {chunk : List (KvArray V × KvArray V)} (wf : c.Wf)
    (count : chunk.length = c.layers.length) (shape : ∀ kv ∈ chunk, ChunkShape c.batch n kv) :
    ∃ c', c.forward n chunk = .ok c' ∧ c'.Wf ∧ c'.Stocked ∧
      c'.rows = c.rows.mapIdx (fun b r =>
        r.append n (chunk.map fun kv => window (chunkEntry c.qcfg kv b) 0 n)) ∧
      c'.layers.length = c.layers.length ∧ c'.qcfg = c.qcfg ∧ c'.batch = c.batch := by
  obtain ⟨layers, ok, extended⟩ := sweep_spec [] wf.step wf.idx_eq rfl count wf.ready shape
  obtain ⟨wf', stocked, appended⟩ := advance_spec chunk wf count extended
  refine ⟨_, ?_, wf', stocked, ?_, ?_, rfl, rfl⟩
  · simp only [forward]
    rw [show c.sweep 0 chunk = .ok { c with layers } from ok]
    rfl
  · apply rows_ext
    · simp [advance]
    · intro b inside
      rw [List.getElem_mapIdx, rows_getElem]
      exact appended b (by simpa using inside)
  · have zipped := extended.length_eq
    rw [List.length_zip, count, Nat.min_self] at zipped
    exact zipped.symm

end BatchKVCache

end Mlxforge
