import Mlxforge.Cache.StoreSpec
import Mlxforge.Lib.Except

/-!
The cache read as one list of K/V vectors per row and layer. `rows` is the abstraction
function; `Wf` is what every operation keeps; each operation's theorem says what it does to
`rows`.
-/

namespace Mlxforge

variable {V : Type}

/-- One position's K and V component vectors. -/
structure Entry (V : Type) where
  k : List V
  v : List V
  deriving DecidableEq

/-- A row as the model sees it: the padding columns still to come, the RoPE position of the
next token, and per layer the K/V written for the row, oldest first. -/
structure RowHistory (V : Type) where
  pad : Nat
  offset : Int
  layers : List (List (Entry V))
  deriving DecidableEq

/-- Append one chunk of `n` columns; the leading padding columns leave no entry. -/
def RowHistory.append (r : RowHistory V) (n : Nat) (chunk : List (List (Entry V))) : RowHistory V where
  pad := r.pad - n
  offset := r.offset + n
  layers := List.zipWith (fun h es => h ++ es.drop r.pad) r.layers chunk

/-- The row `pad_dummies` adds. -/
def RowHistory.dummy (nLayers : Nat) : RowHistory V := ⟨0, 0, List.replicate nLayers []⟩

def KVQuantConfig.components (q : KVQuantConfig) : Nat := if q.enabled then 3 else 1

theorem KVQuantConfig.components_pos (q : KVQuantConfig) : 0 < q.components := by
  unfold components; split <;> decide

/-- The components one written K (or V) chunk is stored as. -/
def components [Slot V] (q : KVQuantConfig) (x : KvArray V) : List (KvArray V) :=
  if q.enabled then quantize x q.groupSize.toNat q.bits.toNat else [x]

theorem components_length [Slot V] (q : KVQuantConfig) (x : KvArray V) :
    (components q x).length = q.components := by
  unfold components KVQuantConfig.components; split <;> rfl

theorem components_stored [Slot V] (q : KVQuantConfig) (x : KvArray V) :
    Stored x.batch x.cap (components q x) := by
  unfold components quantize
  split <;> simp [Stored, KvArray.map]

/-- The entry a chunk holds for row `b` in its column `j`. -/
def chunkEntry [Slot V] (q : KVQuantConfig) (kv : KvArray V × KvArray V) (b j : Nat) : Entry V :=
  ⟨slotAt (components q kv.1) b j, slotAt (components q kv.2) b j⟩

namespace Layer

def entry (l : Layer V) (b t : Nat) : Entry V := ⟨slotAt l.keys b t, slotAt l.values b t⟩

/-- The entries row `b` holds in slots `[lo, hi)`. -/
def view (l : Layer V) (b lo hi : Nat) : List (Entry V) := window (l.entry b) lo hi

def Blank (l : Layer V) : Prop := l.keys = [] ∧ l.values = []

/-- `m` components of `B` rows on each side, with room for the `n` written positions. -/
structure Written (B n m : Nat) (l : Layer V) : Prop where
  keysCount : l.keys.length = m
  valuesCount : l.values.length = m
  keysRoom : ∃ cap, n ≤ cap ∧ Stored B cap l.keys
  valuesRoom : ∃ cap, n ≤ cap ∧ Stored B cap l.values

end Layer

namespace BatchKVCache

def padding (c : BatchKVCache V) (b : Nat) : Int := c.leftPadding.getD b 0

/-- The number of written positions. -/
def len (c : BatchKVCache V) : Nat := c.idx.toNat

def row (c : BatchKVCache V) (b : Nat) : RowHistory V where
  pad := (c.padding b - c.idx).toNat
  offset := c.offset.getD b 0
  layers := c.layers.map fun l => l.view b (c.padding b).toNat c.len

def rows (c : BatchKVCache V) : List (RowHistory V) := (List.range c.batch).map c.row

@[simp] theorem rows_length (c : BatchKVCache V) : c.rows.length = c.batch := by simp [rows]

theorem rows_ext {c : BatchKVCache V} {rs : List (RowHistory V)} (count : c.batch = rs.length)
    (same : ∀ b (h : b < rs.length), c.row b = rs[b]) : c.rows = rs := by
  apply List.ext_getElem
  · simpa using count
  · intro b h₁ h₂
    simpa [rows] using same b h₂

theorem rows_getElem {c : BatchKVCache V} {b : Nat} (h : b < c.rows.length) : c.rows[b] = c.row b := by
  simp [rows]

def Stocked (c : BatchKVCache V) : Prop :=
  ∀ l ∈ c.layers, l.Written c.batch c.len c.qcfg.components

structure Wf (c : BatchKVCache V) : Prop where
  step : 0 < c.kStep
  idx : 0 ≤ c.idx
  offsets : c.offset.length = c.batch
  paddings : c.leftPadding.length = c.batch
  padding : ∀ p ∈ c.leftPadding, 0 ≤ p
  store : (c.idx = 0 ∧ ∀ l ∈ c.layers, l.Blank) ∨ c.Stocked

theorem Wf.idx_eq {c : BatchKVCache V} (wf : c.Wf) : c.idx = c.len :=
  (Int.toNat_of_nonneg wf.idx).symm

theorem Wf.padding_nonneg {c : BatchKVCache V} (wf : c.Wf) (b : Nat) : 0 ≤ c.padding b := by
  unfold BatchKVCache.padding
  by_cases h : b < c.leftPadding.length
  · rw [← List.getElem_eq_getD (h := h)]
    exact wf.padding _ (List.getElem_mem h)
  · rw [List.getD_eq_getElem?_getD, List.getElem?_eq_none (by omega)]
    exact Int.le_refl 0

/-- Two rows agree when their bookkeeping does and their layers read the same in the window. -/
theorem row_congr {c d : BatchKVCache V} {b b' : Nat} (pad : d.padding b' - d.idx = c.padding b - c.idx)
    (offset : d.offset.getD b' 0 = c.offset.getD b 0)
    (views : List.Forall₂ (fun l' l => Layer.view l' b' (d.padding b').toNat d.len =
      Layer.view l b (c.padding b).toNat c.len) d.layers c.layers) :
    d.row b' = c.row b := by
  have layers := map_eq_of_forall₂ views
  simp only [row, pad, offset, layers]

/-! ### A fresh cache -/

theorem new_wf {kStep nLayers : Nat} {leftPadding : List Int} {qcfg : KVQuantConfig}
    (step : 0 < kStep) (nonneg : ∀ p ∈ leftPadding, 0 ≤ p) :
    (new kStep nLayers leftPadding qcfg : BatchKVCache V).Wf where
  step := step
  idx := Int.le_refl 0
  offsets := by simp [new]
  paddings := rfl
  padding := nonneg
  store := Or.inl ⟨rfl, fun l member => by
    rw [List.eq_of_mem_replicate member]; exact ⟨rfl, rfl⟩⟩

theorem new_rows {kStep nLayers : Nat} {leftPadding : List Int} {qcfg : KVQuantConfig} :
    (new kStep nLayers leftPadding qcfg : BatchKVCache V).rows =
      leftPadding.map fun p => ⟨p.toNat, -p, List.replicate nLayers []⟩ := by
  apply List.ext_getElem
  · simp [rows, new]
  · intro b h₁ h₂
    have inside : b < leftPadding.length := by simpa using h₂
    simp only [rows, List.getElem_map, List.getElem_range, row, padding, len, new]
    simp [inside, Layer.view, window_empty]

end BatchKVCache

end Mlxforge
