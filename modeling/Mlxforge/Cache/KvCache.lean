import Mlxforge.Cache.RowAppend

/-!
The single-sequence cache. A dense layer grows by concatenation and holds the written positions exactly; a quantized layer
goes through the block-grown writer of the batched cache.
-/

namespace Mlxforge

variable {V : Type}

structure KVCache (V : Type) where
  kStep : Nat := 256
  layers : List (Layer V)
  qcfg : KVQuantConfig := {}
  offset : Int := 0

namespace KVCache

def new (nLayers : Nat) (qcfg : KVQuantConfig := {}) : KVCache V where
  layers := List.replicate nLayers {}
  qcfg := qcfg

def quantized (c : KVCache V) : Bool := c.qcfg.enabled

def advance (c : KVCache V) (nTokens : Nat) : KVCache V := { c with offset := c.offset + nTokens }

def fetch (c : KVCache V) (layer : Nat) : Except Fault (KvArray V × KvArray V) :=
  if c.quantized then .error .cacheQuantized
  else
    match (c.layers.getD layer {}).keys, (c.layers.getD layer {}).values with
    | k :: _, v :: _ => .ok (k, v)
    | _, _ => .error .outOfBounds

/-- The dense write of one layer; whether it is the first one is decided by the keys alone. -/
def concatLayer (l : Layer V) (k v : KvArray V) : Except Fault (Layer V) :=
  match l.keys, l.values with
  | [], _ => .ok { l with keys := [k], values := [v] }
  | k₀ :: _, v₀ :: _ => do
    let keys ← k₀.concatSeq k
    let values ← v₀.concatSeq v
    return { l with keys := [keys], values := [values] }
  | _ :: _, [] => .error .outOfBounds

def updateAndFetch (c : KVCache V) (layer : Nat) (k v : KvArray V) :
    Except Fault (KVCache V × (List (KvArray V) × List (KvArray V))) := do
  if c.quantized then throw .cacheQuantized
  let l ← concatLayer (c.layers.getD layer {}) k v
  return ({ c with layers := c.layers.set layer l }, (l.keys, l.values))

section
variable [Slot V]

def updateAndFetchQuantized (c : KVCache V) (layer : Nat) (k v : KvArray V) :
    Except Fault (KVCache V × (List (KvArray V) × List (KvArray V))) := do
  if !c.quantized then throw .cacheDense
  let (l, kv) ← BatchKVCache.Layer.write (fun store x => quantizeAndUpdate store x c.qcfg c.offset c.kStep)
    (c.layers.getD layer {}) k v
  return ({ c with layers := c.layers.set layer l }, kv)

/-- The dispatch of `sdpa_with_cache`: the storage mode decides which write runs. -/
def append (c : KVCache V) (layer : Nat) (k v : KvArray V) :
    Except Fault (KVCache V × (List (KvArray V) × List (KvArray V))) :=
  if c.quantized then c.updateAndFetchQuantized layer k v else c.updateAndFetch layer k v

end

/-! ### As one row of the batched cache -/

/-- The batched cache of one unpadded row that holds the same components. -/
def asBatch (c : KVCache V) : BatchKVCache V where
  kStep := c.kStep
  batch := 1
  idx := c.offset
  layers := c.layers
  qcfg := c.qcfg
  offset := [c.offset]
  leftPadding := [0]

/-- A dense layer has no capacity beyond its `n` positions. -/
def Exact (n : Nat) (l : Layer V) : Prop := Stored 1 n l.keys ∧ Stored 1 n l.values

structure Wf (c : KVCache V) : Prop where
  asBatch : c.asBatch.Wf
  exact : c.quantized = false → ∀ l ∈ c.layers, Exact c.asBatch.len l

theorem new_wf (nLayers : Nat) (q : KVQuantConfig) : (new nLayers q : KVCache V).Wf where
  asBatch :=
    { step := Nat.zero_lt_succ 255
      idx := le_rfl
      offsets := rfl
      paddings := rfl
      padding := by simp [asBatch]
      store := .inl ⟨rfl, fun l member => by rw [List.eq_of_mem_replicate member]; exact ⟨rfl, rfl⟩⟩ }
  exact := by
    intro _ l member
    rw [List.eq_of_mem_replicate member]
    exact ⟨stored_nil _ _, stored_nil _ _⟩

theorem new_row (nLayers : Nat) (q : KVQuantConfig) : (new nLayers q : KVCache V).asBatch.row 0 = .dummy nLayers := by
  simp [BatchKVCache.row, BatchKVCache.padding, BatchKVCache.len, asBatch, new, RowHistory.dummy, Layer.view]

/-- What attention is handed after a write: the layer's populated slots. -/
structure Fetched (n : Nat) (l : Layer V) (keys values : List (KvArray V)) : Prop where
  len : seqLen keys = n
  keys : ∀ b t, slotAt keys b t = slotAt l.keys b t
  values : ∀ b t, slotAt values b t = slotAt l.values b t

variable {q : KVQuantConfig} {n L : Nat} {l : Layer V} {kv : KvArray V × KvArray V}

theorem dense_components [Slot V] (dense : q.enabled = false) (x : KvArray V) : components q x = [x] := by
  rw [components, dense]
  rfl

theorem start_appended {x : KvArray V} (row : x.batch = 1) (len : x.cap = L) : Appended 1 0 L [] [x] [x] where
  count := rfl
  room := ⟨L, (Nat.zero_add L).le, by simp [Stored, row, len]⟩
  old := fun _ _ below => absurd below (Nat.not_lt_zero _)
  new := fun b j _ => by rw [Nat.zero_add]

theorem concat_appended {x₀ x : KvArray V} (row₀ : x₀.batch = 1) (len₀ : x₀.cap = n) (row : x.batch = 1) (len : x.cap = L) :
    ∃ y, x₀.concatSeq x = .ok y ∧ Stored 1 (n + L) [y] ∧ Appended 1 n L [x₀] [x] [y] := by
  subst len₀
  refine ⟨_, KvArray.concatSeq_ok (row₀.trans row.symm), ?_, ?_⟩
  · simp [Stored, row₀, len]
  · refine ⟨rfl, ⟨x₀.cap + L, le_rfl, by simp [Stored, row₀, len]⟩, fun b t below => ?_, fun b j _ => ?_⟩
    · simp [slotAt, below]
    · simp [slotAt]

theorem concatLayer_spec [Slot V] (dense : q.enabled = false) (ready : l.Ready 1 n q.components) (exact : Exact n l)
    (kBatch : kv.1.batch = 1) (vBatch : kv.2.batch = 1) (kCap : kv.1.cap = L) (vCap : kv.2.cap = L) :
    ∃ l', concatLayer l kv.1 kv.2 = .ok l' ∧ l.Extended q 1 n L kv l' ∧ Exact (n + L) l' ∧
      Fetched (n + L) l' l'.keys l'.values := by
  have one : q.components = 1 := by rw [KVQuantConfig.components, dense]; rfl
  rcases ready with ⟨⟨noKeys, noValues⟩, rfl⟩ | written
  · have keys : Appended 1 0 L l.keys (components q kv.1) [kv.1] := by
      rw [noKeys, dense_components dense]
      exact start_appended kBatch kCap
    have values : Appended 1 0 L l.values (components q kv.2) [kv.2] := by
      rw [noValues, dense_components dense]
      exact start_appended vBatch vCap
    have stored : Exact (0 + L) ({ l with keys := [kv.1], values := [kv.2] } : Layer V) := by
      rw [Nat.zero_add]
      exact ⟨by simp [Stored, kBatch, kCap], by simp [Stored, vBatch, vCap]⟩
    exact ⟨{ l with keys := [kv.1], values := [kv.2] }, by rw [concatLayer, noKeys], ⟨keys, values⟩, stored,
      ⟨seqLen_stored stored.1 (by simp), fun _ _ => rfl, fun _ _ => rfl⟩⟩
  · obtain ⟨k₀, keys⟩ := List.length_eq_one_iff.mp (written.keysCount.trans one)
    obtain ⟨v₀, values⟩ := List.length_eq_one_iff.mp (written.valuesCount.trans one)
    obtain ⟨kRow, kLen⟩ := exact.1 k₀ (by rw [keys]; exact List.mem_singleton_self _)
    obtain ⟨vRow, vLen⟩ := exact.2 v₀ (by rw [values]; exact List.mem_singleton_self _)
    obtain ⟨k', kOk, kStored, kAppended⟩ := concat_appended kRow kLen kBatch kCap
    obtain ⟨v', vOk, vStored, vAppended⟩ := concat_appended vRow vLen vBatch vCap
    rw [← keys, ← dense_components dense] at kAppended
    rw [← values, ← dense_components dense] at vAppended
    refine ⟨{ l with keys := [k'], values := [v'] }, ?_, ⟨kAppended, vAppended⟩, ⟨kStored, vStored⟩,
      ⟨seqLen_stored kStored (by simp), fun _ _ => rfl, fun _ _ => rfl⟩⟩
    rw [concatLayer, keys, values]
    dsimp only
    rw [kOk, vOk]
    rfl

end KVCache

end Mlxforge
