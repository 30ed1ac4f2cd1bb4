import Mlxforge.Lib.Alike
import Mlxforge.Model.Mrope
import Mlxforge.Model.SingleForward
import Mlxforge.Vision.ImageTokens

/-!
The vision-language decoder over one sequence: the prompt's image tokens are given the features of the vision tower, every
column is rotated to its three positions, and the first layers get the DeepStack features on top.
-/

namespace Mlxforge

variable {V H Q L : Type}

/-- The text decoder with the M-RoPE rotation of queries and keys. -/
structure Qwen3VLModel (V H Q L : Type) extends DecoderModel V H Q L where
  imageTokenId : Int
  /-- A row of `mx::zeros({seq, hidden})`. -/
  zeroHidden : H
  mropeQ : MropePosition → Q → Q
  mropeK : MropePosition → V → V

namespace Qwen3VLModel

variable (m : Qwen3VLModel V H Q L)

/-- The features laid over the rows `base` of the prompt; there is nothing to concatenate for an empty one. -/
def scatterFeatures (ids : List Int) (base features : List H) : Except Fault (List H) :=
  if ids = [] then .error .concatenate
  else
    let merged := mergeImageFeatures m.imageTokenId ids base features
    if merged.length = ids.length then .ok merged else .error .reshape

/-- Rotated K and plain V of a chunk. -/
def mropeKeysValues (layer : Nat) (x : KvArray H) (positions : List MropePosition) : KvArray V × KvArray V :=
  (⟨x.batch, x.cap, fun b j => m.mropeK (positions.getD j (.even 0)) (m.projectQkv layer (x.get b j)).2.1⟩,
   ⟨x.batch, x.cap, fun b j => (m.projectQkv layer (x.get b j)).2.2⟩)

/-- The K and V that `mm_attention` attends over: with a cache, its full history. -/
def appendDense (cache : Option (KVCache V)) (layer : Nat) (k v : KvArray V) :
    Except Fault (Option (KVCache V) × List (KvArray V) × List (KvArray V)) :=
  match cache with
  | some c => do
    let (c, (keys, values)) ← c.updateAndFetch layer k v
    return (some c, keys, values)
  | none => .ok (none, [k], [v])

def mmAttention (layer : Nat) (x : KvArray H) (positions : List MropePosition) (cache : Option (KVCache V)) :
    Except Fault (KvArray H × Option (KVCache V)) := do
  -- the cosines are reshaped to the columns of `x`
  if positions.length ≠ x.cap then throw .reshape
  let kv := m.mropeKeysValues layer x positions
  let (cache, keys, values) ← appendDense cache layer kv.1 kv.2
  let query := fun b j => m.mropeQ (positions.getD j (.even 0)) (m.projectQkv layer (x.get b j)).1
  let out := fun b j => m.sdpa {} (query b j) (modeEntries (decide (1 < x.cap)) x.cap keys values b j)
  return (⟨x.batch, x.cap, fun b j => m.oProj layer (out b j)⟩, cache)

/-- Attention and feed-forward network of one layer, with their residuals. -/
def mmBlock (layer : Nat) (h : KvArray H) (positions : List MropePosition) (cache : Option (KVCache V)) :
    Except Fault (KvArray H × Option (KVCache V)) := do
  let (a, cache) ← m.mmAttention layer h positions cache
  return (⟨h.batch, h.cap, fun b j => m.residual layer (h.get b j) (a.get b j)⟩, cache)

/-- DeepStack: the features of layer `layer`, if it has any, are added at the image tokens. -/
def injectDeepstack (ids : List Int) (deepstack : List (List H)) (layer : Nat) (h : KvArray H) : Except Fault (KvArray H) :=
  match deepstack[layer]? with
  | none => .ok h
  | some features => do
    let inject ← m.scatterFeatures ids (List.replicate ids.length m.zeroHidden) features
    return ⟨h.batch, h.cap, fun b j => m.add (h.get b j) (inject.getD j m.zeroHidden)⟩

/-- The layer loop of `run_prefill`, `n` layers from `layer` on. -/
def prefillLayers (ids : List Int) (deepstack : List (List H)) (positions : List MropePosition) : (n layer : Nat) →
    KvArray H → Option (KVCache V) → Except Fault (KvArray H × Option (KVCache V))
  | 0, _, h, cache => .ok (h, cache)
  | n + 1, layer, h, cache => do
    let (h, cache) ← m.mmBlock layer h positions cache
    let h ← m.injectDeepstack ids deepstack layer h
    prefillLayers ids deepstack positions n (layer + 1) h cache

def runPrefill (ids : List Int) (features : List H) (deepstack : List (List H)) (positionIds : PositionIds)
    (cache : Option (KVCache V)) : Except Fault (KvArray L × Option (KVCache V)) := do
  let merged ← m.scatterFeatures ids (ids.map m.embed) features
  let h : KvArray H := ⟨1, ids.length, fun _ j => merged.getD j m.zeroHidden⟩
  let (h, cache) ← m.prefillLayers ids deepstack positionIds.columns m.nLayers 0 h cache
  return ((h.map m.norm).map m.lmHead, cache.map (·.advance ids.length))

def forwardMultimodal (ids : List Int) (features : List H) (deepstack : List (List H)) (positionIds : PositionIds) :
    Except Fault (KvArray L) := do
  let (logits, _) ← m.runPrefill ids features deepstack positionIds none
  return logits

/-- `prefill` writes into the cache it is given. -/
def prefill (ids : List Int) (features : List H) (deepstack : List (List H)) (positionIds : PositionIds) (cache : KVCache V) :
    Except Fault (KvArray L × KVCache V) := do
  let (logits, written) ← m.runPrefill ids features deepstack positionIds (some cache)
  return (logits, written.getD cache)

/-- The layer loop of `decode_step`, `n` layers from `layer` on. -/
def decodeLayers (positions : List MropePosition) : (n layer : Nat) → KvArray H → Option (KVCache V) →
    Except Fault (KvArray H × Option (KVCache V))
  | 0, _, h, cache => .ok (h, cache)
  | n + 1, layer, h, cache => do
    let (h, cache) ← m.mmBlock layer h positions cache
    decodeLayers positions n (layer + 1) h cache

/-- A generated token is text: its three positions are the same. -/
def decodeStep (token : Int) (position : Nat) (cache : KVCache V) : Except Fault (L × KVCache V) := do
  let h : KvArray H := ⟨1, 1, fun _ _ => m.embed token⟩
  let (h, written) ← m.decodeLayers [.even position] m.nLayers 0 h (some cache)
  return (m.lmHead (m.norm (h.get 0 0)), (written.getD cache).advance 1)

/-! ### A prompt through a fresh cache -/

/-- A layer that a chunk of `n` positions was written to, and nothing else. -/
def WrittenOnce (n : Nat) (l : Layer V) : Prop :=
  ∃ k v : KvArray V, l = { keys := [k], values := [v] } ∧ (k.batch = 1 ∧ k.cap = n) ∧ v.batch = 1 ∧ v.cap = n

/-- The cache of a prefilled prompt. -/
structure Occupied (nLayers seq : Nat) (c : KVCache V) : Prop where
  layers : c.layers.length = nLayers
  written : ∀ l ∈ c.layers, WrittenOnce seq l
  dense : c.qcfg = {}
  step : 0 < c.kStep
  offset : c.offset = seq

variable {m} {x : KvArray H} {positions : List MropePosition} {ids : List Int} {deepstack : List (List H)} {n : Nat}

/-- A fresh layer is handed the chunk itself, as attention without a cache is. -/
theorem appendDense_fresh {c : KVCache V} {done rest : List (Layer V)} {layer : Nat} (dense : c.quantized = false)
    (layers : c.layers = done ++ {} :: rest) (at_layer : done.length = layer) (k v : KvArray V) :
    appendDense (some c) layer k v =
      .ok (some { c with layers := done ++ { keys := [k], values := [v] } :: rest }, [k], [v]) := by
  subst at_layer
  have fresh : c.layers.getD done.length {} = {} := by simp [layers]
  have put : c.layers.set done.length { keys := [k], values := [v] } = done ++ { keys := [k], values := [v] } :: rest := by
    simp [layers]
  simp only [appendDense, KVCache.updateAndFetch, dense, fresh, KVCache.concatLayer, ← put]
  rfl

theorem mmBlock_fresh {c : KVCache V} {done rest : List (Layer V)} {layer : Nat} (dense : c.quantized = false)
    (layers : c.layers = done ++ {} :: rest) (at_layer : done.length = layer) (batch : x.batch = 1) (cap : x.cap = n) :
    Alike (fun bare cached => bare = (cached.1, none) ∧ (cached.1.batch = 1 ∧ cached.1.cap = n) ∧
        ∃ l, WrittenOnce n l ∧ cached.2 = some { c with layers := done ++ l :: rest })
      (m.mmBlock layer x positions none) (m.mmBlock layer x positions (some c)) := by
  simp only [mmBlock, mmAttention, appendDense_fresh dense layers at_layer]
  by_cases fits : positions.length ≠ x.cap
  · rw [if_pos fits, if_pos fits]
    exact .error _
  · rw [if_neg fits, if_neg fits]
    exact .ok ⟨rfl, ⟨batch, cap⟩, _, ⟨_, _, rfl, ⟨batch, cap⟩, batch, cap⟩, rfl⟩

theorem injectDeepstack_shape {layer : Nat} {h : KvArray H} (ok : m.injectDeepstack ids deepstack layer x = .ok h) :
    h.batch = x.batch ∧ h.cap = x.cap := by
  unfold injectDeepstack at ok
  split at ok
  · obtain rfl := Except.ok.inj ok
    exact ⟨rfl, rfl⟩
  · obtain ⟨inject, _, ok⟩ := bind_ok ok
    obtain rfl := pure_ok ok
    exact ⟨rfl, rfl⟩

theorem prefillLayers_fresh {c : KVCache V} (done : List (Layer V)) {todo layer : Nat} (dense : c.quantized = false)
    (layers : c.layers = done ++ List.replicate todo ({} : Layer V)) (at_layer : done.length = layer) (batch : x.batch = 1)
    (cap : x.cap = n) :
    Alike (fun bare cached => bare = (cached.1, none) ∧ cached.1.cap = n ∧
        ∃ ls, ls.length = todo ∧ (∀ l ∈ ls, WrittenOnce n l) ∧ cached.2 = some { c with layers := done ++ ls })
      (m.prefillLayers ids deepstack positions todo layer x none)
      (m.prefillLayers ids deepstack positions todo layer x (some c)) := by
  induction todo generalizing done layer x c with
  | zero => exact .ok ⟨rfl, cap, [], rfl, List.forall_mem_nil _, by rw [← show c.layers = done ++ [] from layers]⟩
  | succ todo ih =>
    refine (mmBlock_fresh (m := m) dense layers at_layer batch cap).bind ?_
    rintro _ ⟨h, _⟩ ⟨rfl, ⟨hBatch, hCap⟩, l, written, rfl⟩
    refine .bind_self fun h' injected => ?_
    obtain ⟨batch', cap'⟩ := injectDeepstack_shape injected
    have tail := ih (c := { c with layers := done ++ l :: List.replicate todo ({} : Layer V) }) (done ++ [l]) dense (by simp)
      (by rw [List.length_append, at_layer, List.length_singleton]) (batch'.trans hBatch) (cap'.trans hCap)
    refine tail.imp fun bare cached related => ?_
    obtain ⟨same, hCap, ls, count, all, rfl'⟩ := related
    refine ⟨same, hCap, l :: ls, by rw [List.length_cons, count], List.forall_mem_cons.mpr ⟨written, all⟩, ?_⟩
    rw [rfl', List.append_assoc]
    rfl

/-- Prefilling a fresh cache gives the logits of the pass without one, or throws what it throws. -/
theorem prefill_fresh (ids : List Int) (features : List H) (deepstack : List (List H)) (positionIds : PositionIds) :
    Alike (fun logits written => written.1 = logits ∧ logits.cap = ids.length ∧ Occupied m.nLayers ids.length written.2)
      (m.forwardMultimodal ids features deepstack positionIds : Except Fault (KvArray L))
      (m.prefill ids features deepstack positionIds (KVCache.new m.nLayers)) := by
  simp only [forwardMultimodal, prefill, runPrefill, bind_assoc]
  refine .bind_self fun merged _ => ?_
  refine Alike.bind (prefillLayers_fresh (m := m) (n := ids.length) [] rfl rfl rfl rfl rfl) ?_
  rintro _ ⟨h, _⟩ ⟨rfl, hCap, ls, count, written, rfl⟩
  exact .ok ⟨rfl, hCap, count, written, rfl, Nat.zero_lt_succ 255, Int.zero_add _⟩

/-! ### Decoding one token -/

/-- On text, where the three positions are one, M-RoPE is the rotation of the text decoder. -/
structure TextRope (m : Qwen3VLModel V H Q L) : Prop where
  query : ∀ p : Nat, m.mropeQ (.even p) = m.ropeQ p
  key : ∀ p : Nat, m.mropeK (.even p) = m.ropeK p

/-- The cache as a row of the batched decode, its next token at position `p`. -/
def rowAt (seq p : Nat) (c : KVCache V) : RowHistory V := ⟨0, p, c.layers.map fun l => l.view 0 0 seq⟩

theorem appendDense_written {c : KVCache V} {done rest : List (Layer V)} {layer : Nat} {l : Layer V} {k v : KvArray V}
    (dense : c.quantized = false) (layers : c.layers = done ++ l :: rest) (at_layer : done.length = layer)
    (written : WrittenOnce n l) (kShape : k.batch = 1 ∧ k.cap = 1) (vShape : v.batch = 1 ∧ v.cap = 1) :
    ∃ l' keys values, appendDense (some c) layer k v = .ok (some { c with layers := done ++ l' :: rest }, keys, values) ∧
      WrittenOnce (n + 1) l' ∧ seqLen keys = n + 1 ∧ l'.keys = keys ∧ l'.values = values ∧
      l'.view 0 0 (n + 1) = l.view 0 0 n ++ [⟨[k.get 0 0], [v.get 0 0]⟩] := by
  subst at_layer
  obtain ⟨k₀, v₀, rfl, ⟨kBatch, kCap⟩, vBatch, vCap⟩ := written
  let k' : KvArray V := ⟨k₀.batch, k₀.cap + k.cap, fun b t => if t < k₀.cap then k₀.get b t else k.get b (t - k₀.cap)⟩
  let v' : KvArray V := ⟨v₀.batch, v₀.cap + v.cap, fun b t => if t < v₀.cap then v₀.get b t else v.get b (t - v₀.cap)⟩
  have current : c.layers.getD done.length {} = { keys := [k₀], values := [v₀] } := by simp [layers]
  have put : c.layers.set done.length { keys := [k'], values := [v'] } = done ++ { keys := [k'], values := [v'] } :: rest := by
    simp [layers]
  have kLen : k₀.cap + k.cap = n + 1 := by rw [kCap, kShape.2]
  have vLen : v₀.cap + v.cap = n + 1 := by rw [vCap, vShape.2]
  refine ⟨{ keys := [k'], values := [v'] }, [k'], [v'], ?_, ⟨k', v', rfl, ⟨kBatch, kLen⟩, vBatch, vLen⟩, kLen, rfl, rfl, ?_⟩
  · simp only [appendDense, KVCache.updateAndFetch, dense, current, KVCache.concatLayer,
      KvArray.concatSeq_ok (kBatch.trans kShape.1.symm), KvArray.concatSeq_ok (vBatch.trans vShape.1.symm), ← put]
    rfl
  · rw [Layer.view, window_succ _ (Nat.zero_le n)]
    congr 1
    · apply window_congr
      intro t _ below
      simp [Layer.entry, slotAt, k', v', kCap, vCap, below]
    · simp [Layer.entry, slotAt, k', v', kCap, vCap]

/-- One layer of a decode step: the row gets the token's entry, and attention reads the whole row. -/
theorem mmBlock_decode {c : KVCache V} {done rest : List (Layer V)} {layer p : Nat} {l : Layer V} (text : TextRope m)
    (dense : c.quantized = false) (layers : c.layers = done ++ l :: rest) (at_layer : done.length = layer)
    (written : WrittenOnce n l) (batch : x.batch = 1) (cap : x.cap = 1) :
    let qkv := m.projectQkv layer (x.get 0 0)
    ∃ h l', m.mmBlock layer x [.even p] (some c) = .ok (h, some { c with layers := done ++ l' :: rest }) ∧
      (h.batch = 1 ∧ h.cap = 1) ∧ WrittenOnce (n + 1) l' ∧
      l'.view 0 0 (n + 1) = l.view 0 0 n ++ [⟨[m.ropeK p qkv.2.1], [qkv.2.2]⟩] ∧
      h.get 0 0 = m.residual layer (x.get 0 0) (m.oProj layer (m.sdpa {} (m.ropeQ p qkv.1) (l'.view 0 0 (n + 1)))) := by
  intro qkv
  obtain ⟨l', keys, values, ok, written', len, rfl, rfl, view⟩ := appendDense_written dense layers at_layer written
    (k := (m.mropeKeysValues layer x [.even p]).1) (v := (m.mropeKeysValues layer x [.even p]).2) ⟨batch, cap⟩ ⟨batch, cap⟩
  have all : modeEntries false 1 l'.keys l'.values 0 0 = l'.view 0 0 (n + 1) := by
    have every : (List.range (n + 1)).filter (maskMode false 1 (n + 1) 0) = List.range (n + 1) :=
      List.filter_eq_self.mpr fun _ _ => rfl
    rw [modeEntries, len, every]
    simp [Layer.view, window, Layer.entry]
  let query := fun b j => m.mropeQ ([MropePosition.even p].getD j (.even 0)) (m.projectQkv layer (x.get b j)).1
  let h : KvArray H := ⟨x.batch, 1, fun b j => m.residual layer (x.get b j)
    (m.oProj layer (m.sdpa {} (query b j) (modeEntries false 1 l'.keys l'.values b j)))⟩
  refine ⟨h, l', ?_, ⟨batch, rfl⟩, written', ?_, ?_⟩
  · simp only [mmBlock, mmAttention, ok, cap]
    rfl
  · rw [view]
    simp only [mropeKeysValues, List.getD_cons_zero, text.key]
    rfl
  · rw [← all, ← text.query]
    rfl

variable [Slot V]

theorem decodeLayers_row {c : KVCache V} {p : Nat} (text : TextRope m) (dense : c.quantized = false) {todo : List (Layer V)}
    (done : List (Layer V)) (layer : Nat) (layers : c.layers = done ++ todo) (at_layer : done.length = layer)
    (written : ∀ l ∈ todo, WrittenOnce n l) (batch : x.batch = 1) (cap : x.cap = 1) :
    ∃ h todo', m.decodeLayers [.even p] todo.length layer x (some c) = .ok (h, some { c with layers := done ++ todo' }) ∧
      todo'.length = todo.length ∧ (∀ l ∈ todo', WrittenOnce (n + 1) l) ∧
      m.rowLayers {} p layer (x.get 0 0) (todo.map fun l => l.view 0 0 n) =
        (h.get 0 0, todo'.map fun l => l.view 0 0 (n + 1)) := by
  induction todo generalizing c done layer x with
  | nil => exact ⟨x, [], by rw [← show c.layers = done ++ [] from layers]; rfl, rfl, List.forall_mem_nil _, rfl⟩
  | cons l todo ih =>
    obtain ⟨here, later⟩ := List.forall_mem_cons.mp written
    obtain ⟨h, l', ok, ⟨hBatch, hCap⟩, written', view, hidden⟩ := mmBlock_decode (p := p) text dense layers at_layer here batch cap
    obtain ⟨h', todo', tailOk, count, all, row⟩ := ih (c := { c with layers := done ++ l' :: todo }) dense (done ++ [l']) (layer + 1)
      (by simp) (by rw [List.length_append, at_layer, List.length_singleton]) later hBatch hCap
    refine ⟨h', l' :: todo', ?_, by rw [List.length_cons, count, List.length_cons], List.forall_mem_cons.mpr ⟨written', all⟩, ?_⟩
    · rw [List.length_cons, decodeLayers, ok]
      simp only [ok_bind, tailOk, List.append_assoc, List.singleton_append]
    · rw [hidden, view] at row
      rw [List.map_cons, DecoderModel.rowLayers]
      simp only [show ∀ v : V, ({} : KVQuantConfig).store v = [v] from fun _ => rfl, row, List.map_cons, view]

/-- A decode step feeds the row its token. -/
theorem decodeStep_row {c : KVCache V} {p : Nat} (text : TextRope m) (filled : Occupied m.nLayers n c) (token : Int) :
    ∃ logits c', m.decodeStep token p c = .ok (logits, c') ∧ Occupied m.nLayers (n + 1) c' ∧
      m.rowStep {} (rowAt n p c) token = (rowAt (n + 1) (p + 1) c', some logits) := by
  have dense : c.quantized = false := by rw [KVCache.quantized, filled.dense]; rfl
  obtain ⟨h, layers, ok, count, written, row⟩ := decodeLayers_row (m := m) (p := p) (x := ⟨1, 1, fun _ _ => m.embed token⟩) text dense
    [] 0 rfl rfl filled.written rfl rfl
  rw [filled.layers] at ok
  refine ⟨m.lmHead (m.norm (h.get 0 0)), ({ c with layers } : KVCache V).advance 1, ?_,
    ⟨count.trans filled.layers, written, filled.dense, filled.step, ?_⟩, ?_⟩
  · simp only [decodeStep, ok, ok_bind]
    rfl
  · simp [KVCache.advance, filled.offset]
  · simp only [DecoderModel.rowStep, rowAt, row, Nat.lt_irrefl, if_false]
    rfl

end Qwen3VLModel

end Mlxforge
