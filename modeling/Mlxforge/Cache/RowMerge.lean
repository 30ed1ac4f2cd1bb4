import Mlxforge.Cache.RowSurgery

/-! `merge` right-justifies two caches and puts the rows of the second behind the first's. -/

namespace Mlxforge

variable {V : Type} [Slot V]

namespace BatchKVCache

/-- One array moved to write index `N` in `M` slots keeps its `n` written positions. -/
theorem justify_spec {a : KvArray V} {n N M : Nat} (written : n ≤ a.cap) (le : n ≤ N) (fits : N ≤ M) :
    ∃ r : KvArray V, justify N M n a = .ok r ∧ r.batch = a.batch ∧ r.cap = M ∧
      ∀ b t, t < n → r.get b (t + (N - n)) = a.get b t := by
  obtain ⟨left, rfl⟩ := Nat.exists_eq_add_of_le le
  have leftInt : ((n + left : Nat) : Int) - n = (left : Int) := by omega
  simp only [justify, leftInt, Nat.add_sub_cancel_left]
  by_cases tooLong : (M : Int) - a.cap - left < 0
  · -- the tail past `M` is unwritten: it is cut and nothing is added on the right
    have stop : (a.cap : Int) + ((M : Int) - a.cap - left) = ((M - left : Nat) : Int) := by omega
    have cut := KvArray.sliceSeq_prefix a (n := M - left) (by omega)
    simp only [if_pos tooLong, stop, cut]
    by_cases still : (left : Int) ≠ 0 ∨ (0 : Int) ≠ 0
    · rw [if_pos still]
      have padded := KvArray.pad_ok (⟨a.batch, M - left, a.get⟩ : KvArray V) left 0
      simp only [Nat.cast_zero] at padded
      refine ⟨_, padded, rfl, by simp only; omega, fun b t below => ?_⟩
      simp only [Nat.add_sub_cancel]
      rw [if_pos (by omega)]
    · rw [if_neg still]
      have zero : left = 0 := by omega
      exact ⟨_, rfl, rfl, by simp only; omega, fun b t _ => by simp [zero]⟩
  · obtain ⟨right, rightEq⟩ := Int.eq_ofNat_of_zero_le (Int.not_lt.mp tooLong)
    rw [rightEq] at tooLong
    simp only [rightEq, if_neg tooLong]
    by_cases moves : (left : Int) ≠ 0 ∨ (right : Int) ≠ 0
    · rw [if_pos moves]
      refine ⟨_, KvArray.pad_ok a left right, rfl, by simp only; omega, fun b t below => ?_⟩
      simp only [Nat.add_sub_cancel]
      rw [if_pos (by omega)]
    · rw [if_neg moves]
      have zero : left = 0 := by omega
      exact ⟨a, rfl, rfl, by omega, fun b t _ => by simp [zero]⟩

theorem padLayer_spec {comps : List (KvArray V)} {B cap n N M : Nat} (stored : Stored B cap comps)
    (written : n ≤ cap) (le : n ≤ N) (fits : N ≤ M) :
    ∃ comps', padLayer N M n comps = .ok comps' ∧ comps'.length = comps.length ∧
      Stored B M comps' ∧ ∀ b t, t < n → slotAt comps' b (t + (N - n)) = slotAt comps b t := by
  obtain ⟨comps', ok, related⟩ := mapM_forall₂ fun a (member : a ∈ comps) =>
    justify_spec (by rw [(stored a member).2]; exact written) le fits
  refine ⟨comps', ok, related.length_eq.symm, ?_, ?_⟩
  · intro r member
    obtain ⟨a, old, batch, cap', _⟩ := exists_of_forall₂_right related member
    exact ⟨batch.trans (stored a old).1, cap'⟩
  · intro b t below
    exact (map_eq_of_forall₂ (related.imp fun a r h => (h.2.2 b t below).symm)).symm

omit [Slot V] in
/-- Concatenation on the batch axis: the first `Ba` rows read from `as`, the rest from `cs`. -/
theorem concat_spec {as cs : List (KvArray V)} {Ba Bb M : Nat} (count : as.length = cs.length)
    (left : Stored Ba M as) (right : Stored Bb M cs) :
    ∃ rs, zipComponents KvArray.concatBatch as cs = .ok rs ∧ rs.length = as.length ∧
      Stored (Ba + Bb) M rs ∧ (∀ b t, b < Ba → slotAt rs b t = slotAt as b t) ∧
      ∀ b t, slotAt rs (Ba + b) t = slotAt cs b t := by
  let g : KvArray V → KvArray V → KvArray V := fun a c => ⟨a.batch + c.batch, a.cap,
    fun b t => if b < a.batch then a.get b t else c.get (b - a.batch) t⟩
  refine ⟨List.zipWith g as cs, zipComponents_ok count fun a ha c hc =>
    KvArray.concatBatch_ok ((left a ha).2.trans (right c hc).2.symm), by simp [count], ?_, ?_, ?_⟩
  · exact stored_zipWith fun a ha c hc =>
      ⟨by simp [g, (left a ha).1, (right c hc).1], (left a ha).2⟩
  · intro b t inside
    exact slotAt_zipWith_left count fun a ha c _ => by simp [g, (left a ha).1, inside]
  · intro b t
    exact slotAt_zipWith_right count fun a ha c _ => by simp [g, (left a ha).1]

/-- Merging a layer written on both sides: each row's entries move to the common write index. -/
theorem mergeLayer_spec {la lb : Layer V} {Ba Bb na nb N M m : Nat} (left : la.Written Ba na m)
    (right : lb.Written Bb nb m) (leA : na ≤ N) (leB : nb ≤ N) (fits : N ≤ M) :
    ∃ l', mergeLayer N M na nb la lb = .ok l' ∧ l'.Written (Ba + Bb) N m ∧
      (∀ b t, b < Ba → t < na → l'.entry b (t + (N - na)) = la.entry b t) ∧
      (∀ b t, t < nb → l'.entry (Ba + b) (t + (N - nb)) = lb.entry b t) ∧
      l'.convState = mergeState la.convState lb.convState ∧
      l'.recurState = mergeState la.recurState lb.recurState := by
  obtain ⟨_, kaRoom, kaStored⟩ := left.keysRoom
  obtain ⟨_, vaRoom, vaStored⟩ := left.valuesRoom
  obtain ⟨_, kbRoom, kbStored⟩ := right.keysRoom
  obtain ⟨_, vbRoom, vbStored⟩ := right.valuesRoom
  obtain ⟨ka, kaOk, kaLen, kaShape, kaReads⟩ := padLayer_spec kaStored kaRoom leA fits
  obtain ⟨va, vaOk, vaLen, vaShape, vaReads⟩ := padLayer_spec vaStored vaRoom leA fits
  obtain ⟨kb, kbOk, kbLen, kbShape, kbReads⟩ := padLayer_spec kbStored kbRoom leB fits
  obtain ⟨vb, vbOk, vbLen, vbShape, vbReads⟩ := padLayer_spec vbStored vbRoom leB fits
  obtain ⟨keys, keysOk, keysLen, keysShape, keysLeft, keysRight⟩ := concat_spec
    (by rw [kaLen, kbLen, left.keysCount, right.keysCount]) kaShape kbShape
  obtain ⟨values, valuesOk, valuesLen, valuesShape, valuesLeft, valuesRight⟩ := concat_spec
    (by rw [vaLen, vbLen, left.valuesCount, right.valuesCount]) vaShape vbShape
  refine ⟨{ keys, values, convState := mergeState la.convState lb.convState
            recurState := mergeState la.recurState lb.recurState }, ?_,
    ⟨?_, ?_, ⟨M, fits, keysShape⟩, ⟨M, fits, valuesShape⟩⟩, ?_, ?_, rfl, rfl⟩
  · simp only [mergeLayer, kaOk, kbOk, vaOk, vbOk, keysOk, valuesOk, ok_bind]
    rfl
  · rw [keysLen, kaLen, left.keysCount]
  · rw [valuesLen, vaLen, left.valuesCount]
  · intro b t inside below
    simp only [Layer.entry, keysLeft b _ inside, valuesLeft b _ inside, kaReads b t below,
      vaReads b t below]
  · intro b t below
    simp only [Layer.entry, keysRight, valuesRight, kbReads b t below, vbReads b t below]

omit [Slot V] in
theorem sCap_stocked {c : BatchKVCache V} (stocked : c.Stocked) (some : c.layers ≠ []) :
    c.len ≤ c.sCap := by
  unfold sCap
  cases layers : c.layers with
  | nil => exact absurd layers some
  | cons l _ =>
    have written := stocked l (by rw [layers]; simp)
    obtain ⟨cap, room, stored⟩ := written.keysRoom
    have nonempty : l.keys ≠ [] := by
      intro empty
      have := written.keysCount
      rw [empty] at this
      exact absurd this (Nat.ne_of_lt c.qcfg.components_pos)
    simp only [seqLen_stored stored nonempty]
    exact room

/-- What a merged layer shows, for the two halves of the rows. -/
def MergedLayer (Ba na nb N : Nat) (la lb l' : Layer V) : Prop :=
  (∀ b t, b < Ba → t < na → l'.entry b (t + (N - na)) = la.entry b t) ∧
  ∀ b t, t < nb → l'.entry (Ba + b) (t + (N - nb)) = lb.entry b t

omit [Slot V] in
/-- Entries moved by `N - n` show in a window moved by as much. -/
theorem moved_view {l l' : Layer V} {b b' n N lo : Nat} (le : n ≤ N)
    (moved : ∀ t, t < n → l'.entry b' (t + (N - n)) = l.entry b t) :
    l'.view b' (lo + (N - n)) N = l.view b lo n := by
  have stop : N = n + (N - n) := by omega
  simp only [Layer.view]
  rw [show window (l'.entry b') (lo + (N - n)) N = window (l'.entry b') (lo + (N - n)) (n + (N - n)) by
    rw [← stop], ← window_shift]
  exact window_congr fun t _ below => moved t below

theorem mergeLayers_spec {as bs : List (Layer V)} {Ba Bb na nb N M m : Nat}
    (count : as.length = bs.length) (left : ∀ l ∈ as, l.Written Ba na m)
    (right : ∀ l ∈ bs, l.Written Bb nb m) (leA : na ≤ N) (leB : nb ≤ N) (fits : as ≠ [] → N ≤ M) :
    ∃ ls, mergeLayers N M na nb as bs = .ok ls ∧ (∀ l ∈ ls, l.Written (Ba + Bb) N m) ∧
      List.Forall₂ (fun l' p => MergedLayer Ba na nb N p.1 p.2 l') ls (as.zip bs) := by
  induction as generalizing bs with
  | nil => exact ⟨[], rfl, by simp, .nil⟩
  | cons la as ih =>
    cases bs with
    | nil => simp at count
    | cons lb bs =>
      obtain ⟨l', head, written, readsA, readsB, _, _⟩ :=
        mergeLayer_spec (left la (by simp)) (right lb (by simp)) leA leB (fits (by simp))
      obtain ⟨ls, tail, rest, related⟩ := ih (by simpa using count)
        (fun l hl => left l (by simp [hl])) (fun l hl => right l (by simp [hl])) fun _ => fits (by simp)
      refine ⟨l' :: ls, ?_, ?_, .cons ⟨readsA, readsB⟩ related⟩
      · simp only [mergeLayers, head, tail, ok_bind]
        rfl
      · intro l hl
        rcases List.mem_cons.mp hl with rfl | hl
        · exact written
        · exact rest l hl

/-- What `merge` makes of two caches with rows, given the merged layers. -/
def joined (c other : BatchKVCache V) (layers : List (Layer V)) : BatchKVCache V :=
  let maxIdx := max c.idx other.idx
  { c with
    layers
    leftPadding := c.leftPadding.map (· + (maxIdx - c.idx)) ++
      other.leftPadding.map (· + (maxIdx - other.idx))
    offset := c.offset ++ other.offset
    idx := maxIdx
    batch := c.batch + other.batch }

section joined
variable {c other : BatchKVCache V}

theorem merge_live (config : c.qcfg = other.qcfg) (someA : c.batch ≠ 0) (someB : other.batch ≠ 0)
    (idxA : c.idx = c.len) (idxB : other.idx = other.len) :
    c.merge other = (do
      let layers ← mergeLayers (max c.len other.len : Nat) (max c.sCap other.sCap : Nat) c.len other.len
        c.layers other.layers
      return joined c other layers) := by
  simp only [merge, if_neg (not_not.mpr config), if_neg someA, if_neg someB, Nat.cast_max, ← idxA, ← idxB]
  rfl

variable (layers : List (Layer V))

omit [Slot V] in
theorem joined_padding_left (other : BatchKVCache V) {b : Nat} (inside : b < c.leftPadding.length) :
    (joined c other layers).padding b = c.padding b + (max c.idx other.idx - c.idx) := by
  simp only [joined, padding]
  rw [getD_append_left (by simpa using inside)]
  simp [inside]

omit [Slot V] in
theorem joined_padding_right {b : Nat} (paddings : c.leftPadding.length = c.batch)
    (inside : b < other.leftPadding.length) :
    (joined c other layers).padding (c.batch + b) = other.padding b + (max c.idx other.idx - other.idx) := by
  simp only [joined, padding]
  rw [getD_append_right (by simp [paddings])]
  simp [inside]

variable (idxA : c.idx = c.len) (idxB : other.idx = other.len)
include idxA idxB

omit [Slot V] in
theorem joined_len : (joined c other layers).len = max c.len other.len := by
  simp only [joined, BatchKVCache.len] at *
  omega

omit [Slot V] in
/-- Where a row of `c` starts once its entries have moved to the common write index. -/
theorem joined_start_left {b : Nat} (inside : b < c.leftPadding.length) (nonneg : 0 ≤ c.padding b) :
    ((joined c other layers).padding b).toNat = (c.padding b).toNat + (max c.len other.len - c.len) := by
  rw [joined_padding_left layers other inside]
  omega

omit [Slot V] in
theorem joined_start_right {b : Nat} (paddings : c.leftPadding.length = c.batch)
    (inside : b < other.leftPadding.length) (nonneg : 0 ≤ other.padding b) :
    ((joined c other layers).padding (c.batch + b)).toNat =
      (other.padding b).toNat + (max c.len other.len - other.len) := by
  rw [joined_padding_right layers paddings inside]
  omega

end joined

/-- The merged cache's rows are the rows of both caches, first `c`'s, then `other`'s. -/
theorem merge_spec {c other : BatchKVCache V} (wfA : c.Wf) (wfB : other.Wf) (stockedA : c.Stocked)
    (stockedB : other.Stocked) (config : c.qcfg = other.qcfg)
    (count : c.layers.length = other.layers.length) :
    ∃ c', c.merge other = .ok c' ∧ c'.Wf ∧ c'.Stocked ∧ c'.rows = c.rows ++ other.rows ∧
      c'.layers.length = c.layers.length ∧ c'.qcfg = c.qcfg ∧ c'.batch = c.batch + other.batch := by
  by_cases emptyB : other.batch = 0
  · refine ⟨c, ?_, wfA, stockedA, ?_, rfl, rfl, by omega⟩
    · simp [merge, config, emptyB, pure, Except.pure]
    · simp [rows, emptyB]
  by_cases emptyA : c.batch = 0
  · have same : ∀ b, ({ other with kStep := c.kStep } : BatchKVCache V).row b = other.row b := fun _ => rfl
    refine ⟨{ other with kStep := c.kStep }, ?_, ⟨wfA.step, wfB.idx, wfB.offsets, wfB.paddings,
      wfB.padding, wfB.store⟩, stockedB, ?_, count.symm, config.symm, by simp [emptyA]⟩
    · simp [merge, config, emptyA, emptyB, pure, Except.pure]
    · simp only [rows, emptyA, List.range_zero, List.map_nil, List.nil_append]
      exact List.map_congr_left fun b _ => same b
  let N := max c.len other.len
  have fits : c.layers ≠ [] → N ≤ max c.sCap other.sCap := by
    intro some
    have someB : other.layers ≠ [] := by
      intro empty
      rw [empty] at count
      exact some (List.length_eq_zero_iff.mp count)
    have := sCap_stocked stockedA some
    have := sCap_stocked stockedB someB
    simp only [N]
    omega
  have idxA := wfA.idx_eq
  have idxB := wfB.idx_eq
  have stockedB' : ∀ l ∈ other.layers, l.Written other.batch other.len c.qcfg.components :=
    fun l member => config ▸ stockedB l member
  obtain ⟨layers, ok, written, related⟩ := mergeLayers_spec count stockedA stockedB'
    (Nat.le_max_left _ _) (Nat.le_max_right _ _) fits
  have len : (joined c other layers).len = N := joined_len layers idxA idxB
  have roomA : c.idx ≤ max c.idx other.idx := le_max_left _ _
  have roomB : other.idx ≤ max c.idx other.idx := le_max_right _ _
  have length : layers.length = c.layers.length := by
    rw [related.length_eq, List.length_zip, ← count, Nat.min_self]
  have stocked : (joined c other layers).Stocked := by
    intro l member
    rw [len]
    exact written l member
  refine ⟨joined c other layers, ?_, ⟨wfA.step, ?_, ?_, ?_, ?_, Or.inr stocked⟩, stocked, ?_, length, rfl, rfl⟩
  · rw [merge_live config emptyA emptyB idxA idxB, ok]
    rfl
  · have := wfA.idx
    simp only [joined]; omega
  · simp [joined, wfA.offsets, wfB.offsets]
  · simp [joined, wfA.paddings, wfB.paddings]
  · intro p member
    rcases List.mem_append.mp member with old | old
    · obtain ⟨q, hq, rfl⟩ := List.mem_map.mp old
      have := wfA.padding q hq
      omega
    · obtain ⟨q, hq, rfl⟩ := List.mem_map.mp old
      have := wfB.padding q hq
      omega
  · apply rows_ext
    · simp [joined]
    · intro b h
      by_cases inside : b < c.batch
      · rw [List.getElem_append_left (by simpa using inside), rows_getElem]
        have start := wfA.padding_nonneg b
        have pad := joined_padding_left layers other (wfA.paddings ▸ inside)
        apply row_congr
        · rw [pad]; simp only [joined]; omega
        · exact getD_append_left (by rw [wfA.offsets]; exact inside)
        · rw [joined_start_left layers idxA idxB (wfA.paddings ▸ inside) start, len]
          have fst := @List.map_fst_zip _ _ c.layers other.layers (by omega)
          rw [← fst]
          apply List.forall₂_map_right_iff.mpr
          exact related.imp fun l' p merged =>
            moved_view (Nat.le_max_left _ _) fun t below => merged.1 b t inside below
      · rw [List.getElem_append_right (by simpa using inside), rows_getElem]
        obtain ⟨i, rfl⟩ := Nat.exists_eq_add_of_le (Nat.not_lt.mp inside)
        have small : i < other.batch := by simp at h; omega
        have start := wfB.padding_nonneg i
        have pad := joined_padding_right layers wfA.paddings (wfB.paddings ▸ small)
        simp only [rows_length, Nat.add_sub_cancel_left]
        apply row_congr
        · rw [pad]; simp only [joined]; omega
        · exact getD_append_right wfA.offsets
        · rw [joined_start_right layers idxA idxB wfA.paddings (wfB.paddings ▸ small) start, len]
          have snd := @List.map_snd_zip _ _ c.layers other.layers (by omega)
          rw [← snd]
          apply List.forall₂_map_right_iff.mpr
          exact related.imp fun l' p merged =>
            moved_view (Nat.le_max_right _ _) fun t below => merged.2 i t below

end BatchKVCache

end Mlxforge
