import Mlxforge.Cache.RowAppend

/-!
The batched forward pass of a decoder model. The kernels act on one position each, and
attention reads exactly the positions the mask keeps; the pass itself, which slot every
position is written to and which positions it may attend to, is the code's.
-/

namespace Mlxforge

variable {V H Q L : Type}

/-- The model as the worker sees it: `forward` is virtual, and keeps the rows of the batch. -/
structure LoadedModel (V L : Type) where
  nLayers : Nat
  forward : KvArray Int → BatchKVCache V → Except Fault (KvArray L × BatchKVCache V)
  /-- The logits before any forward ran: `mx::zeros({B, 1, vocab})`. -/
  zeroLogits : L
  forward_batch : ∀ {tokens c logits c'}, forward tokens c = .ok (logits, c') → c'.batch = c.batch

structure DecoderModel (V H Q L : Type) where
  nLayers : Nat
  embed : Int → H
  /-- `project_qkv`: query, key and value of one position. -/
  projectQkv : (layer : Nat) → H → Q × V × V
  ropeQ : (position : Int) → Q → Q
  ropeK : (position : Int) → V → V
  /-- The attention kernel over the positions the mask keeps, oldest first. -/
  sdpa : KVQuantConfig → Q → List (Entry V) → H
  oProj : (layer : Nat) → H → H
  add : H → H → H
  postAttentionLayernorm : (layer : Nat) → H → H
  feedForward : (layer : Nat) → H → H
  norm : H → H
  lmHead : H → L
  zeroLogits : L

/-- `causal && valid` of `batch_mask`: query column `j` of row `b` sees slot `k`. -/
def batchMask (prevIdx : Int) (leftPadding : List Int) (b j k : Nat) : Bool :=
  decide ((k : Int) ≤ prevIdx + j) && decide (leftPadding.getD b 0 ≤ k)

/-- The slots of row `b` that query column `j` attends to. -/
def attendedEntries (prevIdx : Int) (leftPadding : List Int) (keys values : List (KvArray V)) (b j : Nat) :
    List (Entry V) :=
  ((List.range (seqLen keys)).filter (batchMask prevIdx leftPadding b j)).map fun t =>
    ⟨slotAt keys b t, slotAt values b t⟩

namespace DecoderModel

variable (m : DecoderModel V H Q L)

/-- The residual structure around attention and the feed-forward network. -/
def residual (layer : Nat) (h a : H) : H :=
  let attended := m.add h a
  m.add attended (m.feedForward layer (m.postAttentionLayernorm layer attended))

def queryAt (x : KvArray H) (layer : Nat) (offset : List Int) (b j : Nat) : Q :=
  m.ropeQ (offset.getD b 0 + j) (m.projectQkv layer (x.get b j)).1

/-- Roped K and plain V of a chunk. -/
def keysValues (x : KvArray H) (layer : Nat) (offset : List Int) : KvArray V × KvArray V :=
  (⟨x.batch, x.cap, fun b j => m.ropeK (offset.getD b 0 + j) (m.projectQkv layer (x.get b j)).2.1⟩,
   ⟨x.batch, x.cap, fun b j => (m.projectQkv layer (x.get b j)).2.2⟩)

variable [Slot V]

def attentionBatched (x : KvArray H) (layer : Nat) (offset : List Int) (prevIdx : Int)
    (leftPadding : List Int) (cache : BatchKVCache V) : Except Fault (KvArray H × BatchKVCache V) := do
  let kv := m.keysValues x layer offset
  let (cache, (keys, values)) ← cache.append layer kv.1 kv.2
  let out := fun b j => m.sdpa cache.qcfg (m.queryAt x layer offset b j)
    (attendedEntries prevIdx leftPadding keys values b j)
  return (⟨x.batch, x.cap, fun b j => m.oProj layer (out b j)⟩, cache)

/-- The layer loop of `forward`, `n` layers from `layer` on. -/
def forwardLayers (offset : List Int) (prevIdx : Int) (leftPadding : List Int) :
    (n layer : Nat) → KvArray H → BatchKVCache V → Except Fault (KvArray H × BatchKVCache V)
  | 0, _, h, cache => .ok (h, cache)
  | n + 1, layer, h, cache => do
    let (a, cache) ← m.attentionBatched h layer offset prevIdx leftPadding cache
    let h := ⟨h.batch, h.cap, fun b j => m.residual layer (h.get b j) (a.get b j)⟩
    forwardLayers offset prevIdx leftPadding n (layer + 1) h cache

/-- One pass over a `(B, N)` token chunk: logits of every position, and the cache advanced by `N`. -/
def forward (tokens : KvArray Int) (cache : BatchKVCache V) :
    Except Fault (KvArray L × BatchKVCache V) := do
  let (h, cache) ← m.forwardLayers cache.offset cache.idx cache.leftPadding m.nLayers 0
    (tokens.map m.embed) cache
  return ((h.map m.norm).map m.lmHead, cache.advance tokens.cap)

variable {m}

theorem append_batch {c c' : BatchKVCache V} {layer : Nat} {k v : KvArray V} {kv : List (KvArray V) × List (KvArray V)}
    (ok : c.append layer k v = .ok (c', kv)) : c'.batch = c.batch := by
  rw [BatchKVCache.append_eq] at ok
  obtain ⟨⟨l, fetched⟩, _, ok⟩ := bind_ok ok
  obtain ⟨rfl, _⟩ := Prod.mk.inj (pure_ok ok)
  rfl

theorem attentionBatched_batch {x : KvArray H} {layer : Nat} {offset leftPadding : List Int} {prevIdx : Int}
    {c c' : BatchKVCache V} {a : KvArray H} (ok : m.attentionBatched x layer offset prevIdx leftPadding c = .ok (a, c')) :
    c'.batch = c.batch := by
  unfold attentionBatched at ok
  obtain ⟨⟨cache, keys, values⟩, appended, ok⟩ := bind_ok ok
  obtain ⟨rfl, rfl⟩ := Prod.mk.inj (pure_ok ok)
  exact append_batch appended

theorem forwardLayers_batch {offset leftPadding : List Int} {prevIdx : Int} {n layer : Nat} {h h' : KvArray H}
    {c c' : BatchKVCache V} (ok : m.forwardLayers offset prevIdx leftPadding n layer h c = .ok (h', c')) :
    c'.batch = c.batch := by
  induction n generalizing layer h c with
  | zero =>
    obtain ⟨rfl, rfl⟩ := Prod.mk.inj (Except.ok.inj ok)
    rfl
  | succ n ih =>
    unfold forwardLayers at ok
    obtain ⟨⟨a, cache⟩, attended, ok⟩ := bind_ok ok
    rw [ih ok, attentionBatched_batch attended]

theorem forward_batch {tokens : KvArray Int} {c c' : BatchKVCache V} {logits : KvArray L}
    (ok : m.forward tokens c = .ok (logits, c')) : c'.batch = c.batch := by
  unfold forward at ok
  obtain ⟨⟨h, cache⟩, layers, ok⟩ := bind_ok ok
  obtain ⟨_, rfl⟩ := Prod.mk.inj (pure_ok ok)
  exact (forwardLayers_batch layers : cache.batch = c.batch)

variable (m)

def loaded : LoadedModel V L := ⟨m.nLayers, m.forward, m.zeroLogits, forward_batch⟩

@[simp] theorem loaded_nLayers : m.loaded.nLayers = m.nLayers := rfl

@[simp] theorem loaded_zeroLogits : m.loaded.zeroLogits = m.zeroLogits := rfl

end DecoderModel

end Mlxforge
