import Mlxforge.Cache.RowMerge

/-!
Merging the caches of a hybrid model. Its linear-attention layers carry a conv and a delta
state per row instead of K/V, so the capacity `merge` reads off layer 0 is 0 when that layer
is linear, and every full-attention layer is cut to it.
-/

namespace Mlxforge

variable {V : Type}

/-- `is_linear_layer`: every `fullAttentionInterval`-th layer is full attention. -/
def isLinearLayer (fullAttentionInterval : Int) (i : Nat) : Bool :=
  if fullAttentionInterval ≤ 0 then false else ((i : Int) + 1) % fullAttentionInterval != 0

namespace Layer

/-- A linear-attention layer: no K/V, one conv and one delta state per row. -/
structure Linear (B : Nat) (l : Layer V) : Prop where
  blank : l.Blank
  conv : ∃ rows, l.convState = some rows ∧ rows.length = B
  recur : ∃ rows, l.recurState = some rows ∧ rows.length = B

/-- Row `b`'s slots `[lo, hi)` are allocated and hold `es`. -/
def Holds (l : Layer V) (b lo hi : Nat) (es : List (Entry V)) : Prop :=
  l.view b lo hi = es ∧ (lo < hi → ∀ a ∈ l.keys ++ l.values, b < a.batch ∧ hi ≤ a.cap)

theorem Written.holds {l : Layer V} {B n m b lo : Nat} (written : l.Written B n m) (inside : b < B) :
    l.Holds b lo n (l.view b lo n) := by
  obtain ⟨kc, kRoom, keys⟩ := written.keysRoom
  obtain ⟨vc, vRoom, values⟩ := written.valuesRoom
  refine ⟨rfl, fun _ a member => ?_⟩
  rcases List.mem_append.mp member with side | side
  · exact ⟨(keys a side).1 ▸ inside, (keys a side).2 ▸ kRoom⟩
  · exact ⟨(values a side).1 ▸ inside, (values a side).2 ▸ vRoom⟩

end Layer

namespace BatchKVCache

/-- A hybrid model's cache after at least one forward pass. -/
structure HybridWf (interval : Int) (c : BatchKVCache V) : Prop where
  idx : 0 ≤ c.idx
  paddings : c.leftPadding.length = c.batch
  padding : ∀ p ∈ c.leftPadding, 0 ≤ p
  linear : ∀ i l, c.layers[i]? = some l → isLinearLayer interval i = true → l.Linear c.batch
  full : ∀ i l, c.layers[i]? = some l → isLinearLayer interval i = false →
    l.Written c.batch c.len c.qcfg.components

/-- `c'` holds the attention history and the linear states of `a`'s rows, then of `b`'s. -/
structure KeepsHistory (interval : Int) (a b c' : BatchKVCache V) : Prop where
  batch : c'.batch = a.batch + b.batch
  linear : ∀ i la lb, a.layers[i]? = some la → b.layers[i]? = some lb → isLinearLayer interval i = true →
    ∃ l', c'.layers[i]? = some l' ∧
      l'.convState.getD [] = la.convState.getD [] ++ lb.convState.getD [] ∧
      l'.recurState.getD [] = la.recurState.getD [] ++ lb.recurState.getD []
  full : ∀ i la lb, a.layers[i]? = some la → b.layers[i]? = some lb → isLinearLayer interval i = false →
    ∃ l', c'.layers[i]? = some l' ∧
      (∀ r < a.batch, l'.Holds r (c'.padding r).toNat c'.len (la.view r (a.padding r).toNat a.len)) ∧
      ∀ r < b.batch, l'.Holds (a.batch + r) (c'.padding (a.batch + r)).toNat c'.len
        (lb.view r (b.padding r).toNat b.len)

theorem HybridWf.padding_nonneg {interval : Int} {c : BatchKVCache V} (wf : c.HybridWf interval) (r : Nat) :
    0 ≤ c.padding r := by
  unfold BatchKVCache.padding
  by_cases inside : r < c.leftPadding.length
  · rw [← List.getElem_eq_getD (h := inside)]
    exact wf.padding _ (List.getElem_mem inside)
  · rw [List.getD_eq_getElem?_getD, List.getElem?_eq_none (by omega)]
    exact Int.le_refl 0

theorem HybridWf.idx_eq {interval : Int} {c : BatchKVCache V} (wf : c.HybridWf interval) : c.idx = c.len :=
  (Int.toNat_of_nonneg wf.idx).symm

/-- No row has a position to show. -/
def Hidden (c : BatchKVCache V) : Prop := ∀ r < c.batch, c.len ≤ (c.padding r).toNat

/-- The inputs on which `merge` keeps the history: the capacity comes from a full-attention layer, there
is nothing to keep, or nothing has to be moved to another capacity. -/
def MergeSafe (interval : Int) (a b : BatchKVCache V) : Prop :=
  isLinearLayer interval 0 = false ∨ (∀ i < a.layers.length, isLinearLayer interval i = true) ∨
    a.batch = 0 ∨ b.batch = 0 ∨ (a.idx = b.idx ∧ a.Hidden ∧ b.Hidden)

/-! ### One layer -/

section
variable [Slot V]

theorem mergeLayer_linear {la lb : Layer V} {Ba Bb : Nat} {N M na nb : Int} (left : la.Linear Ba)
    (right : lb.Linear Bb) :
    ∃ l', mergeLayer N M na nb la lb = .ok l' ∧
      l'.convState.getD [] = la.convState.getD [] ++ lb.convState.getD [] ∧
      l'.recurState.getD [] = la.recurState.getD [] ++ lb.recurState.getD [] := by
  obtain ⟨ca, convA, _⟩ := left.conv
  obtain ⟨cb, convB, _⟩ := right.conv
  obtain ⟨ra, recurA, _⟩ := left.recur
  obtain ⟨rb, recurB, _⟩ := right.recur
  refine ⟨{ convState := some (ca ++ cb), recurState := some (ra ++ rb) }, ?_, ?_, ?_⟩
  · simp [mergeLayer, padLayer, left.blank.1, left.blank.2, right.blank.1, right.blank.2, zipComponents,
      mergeState, convA, convB, recurA, recurB, pure, Except.pure]
  · simp [convA, convB]
  · simp [recurA, recurB]

/-- Moved to write index `N` in 0 slots: the cache that is at `N` already loses every slot, the
other keeps what its left padding adds. -/
theorem justify_dropped {a : KvArray V} {n N : Nat} (written : n ≤ a.cap) (le : n ≤ N) :
    ∃ r : KvArray V, justify N (0 : Nat) n a = .ok r ∧ r.batch = a.batch ∧
      r.cap = if n = N then 0 else max a.cap (N - n) := by
  obtain ⟨left, rfl⟩ := Nat.exists_eq_add_of_le le
  have leftInt : ((n + left : Nat) : Int) - n = (left : Int) := by omega
  simp only [justify, leftInt, Nat.add_sub_cancel_left]
  by_cases atN : left = 0
  · subst atN
    by_cases empty : a.cap = 0
    · refine ⟨a, by simp [empty], rfl, by simp [empty]⟩
    · refine ⟨a.sliceSeq 0 0, ?_, rfl, by simp [KvArray.sliceSeq]⟩
      simp [show 0 < a.cap by omega]
  · have cut : clampIndex a.cap (-(left : Int)) = a.cap - left := by
      unfold clampIndex
      rw [if_pos (by omega)]
      omega
    have padded := KvArray.pad_ok (a.sliceSeq 0 (-(left : Int))) left 0
    simp only [Nat.cast_zero] at padded
    have stop : (a.cap : Int) + (((0 : Nat) : Int) - a.cap - left) = -(left : Int) := by omega
    rw [if_pos (show (((0 : Nat) : Int) - a.cap - left) < 0 by omega),
      if_pos (show (((0 : Nat) : Int) - a.cap - left) < 0 by omega), if_pos (Or.inl (by omega)), stop, padded]
    refine ⟨_, rfl, rfl, ?_⟩
    rw [if_neg (by omega)]
    simp only [KvArray.sliceSeq, cut, clampIndex_zero]
    omega

theorem padLayer_dropped {comps : List (KvArray V)} {B cap n N : Nat} (stored : Stored B cap comps)
    (written : n ≤ cap) (le : n ≤ N) :
    ∃ comps', padLayer N (0 : Nat) n comps = .ok comps' ∧ comps'.length = comps.length ∧
      Stored B (if n = N then 0 else max cap (N - n)) comps' := by
  obtain ⟨comps', ok, related⟩ := mapM_forall₂ fun a (member : a ∈ comps) =>
    justify_dropped (by rw [(stored a member).2]; exact written) le
  refine ⟨comps', ok, related.length_eq.symm, ?_⟩
  intro r member
  obtain ⟨a, old, batch, cap'⟩ := exists_of_forall₂_right related member
  exact ⟨batch.trans (stored a old).1, by rw [cap', (stored a old).2]⟩

/-- A full-attention layer merged to capacity 0 at one write index keeps no slot. -/
theorem mergeLayer_emptied {la lb : Layer V} {Ba Bb n m : Nat} (left : la.Written Ba n m)
    (right : lb.Written Bb n m) :
    ∃ l', mergeLayer n (0 : Nat) n n la lb = .ok l' ∧ l'.keys.length = m ∧ ∀ a ∈ l'.keys, a.cap = 0 := by
  obtain ⟨_, kaRoom, kaStored⟩ := left.keysRoom
  obtain ⟨_, vaRoom, vaStored⟩ := left.valuesRoom
  obtain ⟨_, kbRoom, kbStored⟩ := right.keysRoom
  obtain ⟨_, vbRoom, vbStored⟩ := right.valuesRoom
  obtain ⟨ka, kaOk, kaLen, kaShape⟩ := padLayer_dropped kaStored kaRoom le_rfl
  obtain ⟨va, vaOk, vaLen, vaShape⟩ := padLayer_dropped vaStored vaRoom le_rfl
  obtain ⟨kb, kbOk, kbLen, kbShape⟩ := padLayer_dropped kbStored kbRoom le_rfl
  obtain ⟨vb, vbOk, vbLen, vbShape⟩ := padLayer_dropped vbStored vbRoom le_rfl
  rw [if_pos rfl] at kaShape kbShape vaShape vbShape
  obtain ⟨keys, keysOk, keysLen, keysShape, _⟩ := concat_spec
    (by rw [kaLen, kbLen, left.keysCount, right.keysCount]) kaShape kbShape
  obtain ⟨values, valuesOk, _⟩ := concat_spec
    (by rw [vaLen, vbLen, left.valuesCount, right.valuesCount]) vaShape vbShape
  refine ⟨{ keys, values, convState := mergeState la.convState lb.convState
            recurState := mergeState la.recurState lb.recurState }, ?_, ?_, fun a member => (keysShape a member).2⟩
  · simp only [mergeLayer, kaOk, kbOk, vaOk, vbOk, keysOk, valuesOk, ok_bind]
    rfl
  · exact keysLen.trans (kaLen.trans left.keysCount)

omit [Slot V] in
theorem zipComponents_concat_fails {as cs : List (KvArray V)} {Ba Bb capA capB : Nat} (someA : as ≠ [])
    (someB : cs ≠ []) (left : Stored Ba capA as) (right : Stored Bb capB cs) (mismatch : capA ≠ capB) :
    zipComponents KvArray.concatBatch as cs = .error .concatenate := by
  cases as with
  | nil => exact absurd rfl someA
  | cons a as =>
    cases cs with
    | nil => exact absurd rfl someB
    | cons c cs =>
      have differ : ¬ a.cap = c.cap := by
        rw [(left a (by simp)).2, (right c (by simp)).2]
        exact mismatch
      simp only [zipComponents, KvArray.concatBatch, if_neg differ]
      rfl

/-- At two write indices the capacities differ, and `concatenate` rejects them. -/
theorem mergeLayer_fails {la lb : Layer V} {Ba Bb na nb m : Nat} (left : la.Written Ba na m)
    (right : lb.Written Bb nb m) (some : 0 < m) (differ : na ≠ nb) :
    mergeLayer (max na nb : Nat) (0 : Nat) na nb la lb = .error .concatenate := by
  obtain ⟨_, kaRoom, kaStored⟩ := left.keysRoom
  obtain ⟨_, vaRoom, vaStored⟩ := left.valuesRoom
  obtain ⟨_, kbRoom, kbStored⟩ := right.keysRoom
  obtain ⟨_, vbRoom, vbStored⟩ := right.valuesRoom
  obtain ⟨ka, kaOk, kaLen, kaShape⟩ := padLayer_dropped kaStored kaRoom (Nat.le_max_left na nb)
  obtain ⟨va, vaOk, _, _⟩ := padLayer_dropped vaStored vaRoom (Nat.le_max_left na nb)
  obtain ⟨kb, kbOk, kbLen, kbShape⟩ := padLayer_dropped kbStored kbRoom (Nat.le_max_right na nb)
  obtain ⟨vb, vbOk, _, _⟩ := padLayer_dropped vbStored vbRoom (Nat.le_max_right na nb)
  have nonempty : ∀ comps : List (KvArray V), comps.length = m → comps ≠ [] := by
    intro comps count empty
    rw [empty] at count
    exact absurd count (Nat.ne_of_lt some)
  have keys := zipComponents_concat_fails (nonempty ka (kaLen.trans left.keysCount))
    (nonempty kb (kbLen.trans right.keysCount)) kaShape kbShape (by
      rcases Nat.lt_or_gt_of_ne differ with lt | gt
      · rw [Nat.max_eq_right (Nat.le_of_lt lt), if_neg differ, if_pos rfl]; omega
      · rw [Nat.max_eq_left (Nat.le_of_lt gt), if_pos rfl, if_neg (Ne.symm differ)]; omega)
  simp only [mergeLayer, kaOk, kbOk, vaOk, vbOk, keys, ok_bind]
  rfl

theorem mergeLayers_eq (N M na nb : Int) (as bs : List (Layer V)) :
    mergeLayers N M na nb as bs = (as.zip bs).mapM fun p => mergeLayer N M na nb p.1 p.2 := by
  induction as generalizing bs with
  | nil => rfl
  | cons a as ih =>
    cases bs with
    | nil => rfl
    | cons b bs => rw [List.zip_cons_cons, List.mapM_cons, mergeLayers, ih]

/-! ### The whole merge -/

variable {interval : Int} {a b : BatchKVCache V}

/-- The merged layer shows both inputs' rows, moved to the common write index. -/
def ShowsBoth (a b : BatchKVCache V) (la lb l' : Layer V) : Prop :=
  (∀ r < a.batch, l'.Holds r ((a.padding r).toNat + (max a.len b.len - a.len)) (max a.len b.len)
    (la.view r (a.padding r).toNat a.len)) ∧
  ∀ r < b.batch, l'.Holds (a.batch + r) ((b.padding r).toNat + (max a.len b.len - b.len)) (max a.len b.len)
    (lb.view r (b.padding r).toNat b.len)

theorem keeps_of_layers (wfA : a.HybridWf interval) (wfB : b.HybridWf interval) (config : a.qcfg = b.qcfg)
    (someA : a.batch ≠ 0) (someB : b.batch ≠ 0)
    (full : ∀ i la lb, a.layers[i]? = some la → b.layers[i]? = some lb → isLinearLayer interval i = false →
      ∃ l', mergeLayer (max a.len b.len : Nat) (max a.sCap b.sCap : Nat) a.len b.len la lb = .ok l' ∧
        ShowsBoth a b la lb l') :
    ∃ c', a.merge b = .ok c' ∧ KeepsHistory interval a b c' := by
  have idxA := wfA.idx_eq
  have idxB := wfB.idx_eq
  have each : ∀ p ∈ a.layers.zip b.layers, ∃ l',
      mergeLayer (max a.len b.len : Nat) (max a.sCap b.sCap : Nat) a.len b.len p.1 p.2 = .ok l' ∧ True := by
    intro p member
    obtain ⟨i, found⟩ := List.mem_iff_getElem?.mp member
    obtain ⟨atA, atB⟩ := List.getElem?_zip_eq_some.mp found
    cases kind : isLinearLayer interval i with
    | true =>
      obtain ⟨l', ok, _⟩ := mergeLayer_linear (wfA.linear i _ atA kind) (wfB.linear i _ atB kind)
      exact ⟨l', ok, trivial⟩
    | false =>
      obtain ⟨l', ok, _⟩ := full i _ _ atA atB kind
      exact ⟨l', ok, trivial⟩
  obtain ⟨layers, ok, _⟩ := mapM_forall₂ each
  refine ⟨joined a b layers, ?_, rfl, ?_, ?_⟩
  · rw [merge_live config someA someB idxA idxB, mergeLayers_eq, ok]
    rfl
  · intro i la lb atA atB kind
    obtain ⟨l', found, merged⟩ := mapM_getElem ok (List.getElem?_zip_eq_some (z := (la, lb)).mpr ⟨atA, atB⟩)
    obtain ⟨l'', ok'', conv, recur⟩ := mergeLayer_linear (wfA.linear i _ atA kind) (wfB.linear i _ atB kind)
    obtain rfl := Except.ok.inj (merged.symm.trans ok'')
    exact ⟨l', found, conv, recur⟩
  · intro i la lb atA atB kind
    obtain ⟨l', found, merged⟩ := mapM_getElem ok (List.getElem?_zip_eq_some (z := (la, lb)).mpr ⟨atA, atB⟩)
    obtain ⟨l'', ok'', showsA, showsB⟩ := full i la lb atA atB kind
    obtain rfl := Except.ok.inj (merged.symm.trans ok'')
    refine ⟨l', found, fun r inside => ?_, fun r inside => ?_⟩
    · rw [joined_start_left _ idxA idxB (wfA.paddings ▸ inside) (wfA.padding_nonneg r), joined_len _ idxA idxB]
      exact showsA r inside
    · rw [joined_start_right _ idxA idxB wfA.paddings (wfB.paddings ▸ inside) (wfB.padding_nonneg r),
        joined_len _ idxA idxB]
      exact showsB r inside

omit [Slot V] in
theorem Linear.rows_nil {l : Layer V} (linear : l.Linear 0) :
    l.convState.getD [] = [] ∧ l.recurState.getD [] = [] := by
  obtain ⟨conv, convEq, convLen⟩ := linear.conv
  obtain ⟨recur, recurEq, recurLen⟩ := linear.recur
  rw [convEq, recurEq]
  exact ⟨List.length_eq_zero_iff.mp convLen, List.length_eq_zero_iff.mp recurLen⟩

theorem keeps_empty_right (wfA : a.HybridWf interval) (wfB : b.HybridWf interval) (config : a.qcfg = b.qcfg)
    (none : b.batch = 0) : ∃ c', a.merge b = .ok c' ∧ KeepsHistory interval a b c' := by
  refine ⟨a, by simp [merge, config, none, pure, Except.pure], by simp [none], ?_, ?_⟩
  · intro i la lb atA atB kind
    obtain ⟨conv, recur⟩ := Linear.rows_nil (none ▸ wfB.linear i lb atB kind)
    exact ⟨la, atA, by rw [conv, List.append_nil], by rw [recur, List.append_nil]⟩
  · intro i la lb atA _ kind
    exact ⟨la, atA, fun r inside => (wfA.full i la atA kind).holds inside, fun r inside => by omega⟩

theorem keeps_empty_left (wfA : a.HybridWf interval) (wfB : b.HybridWf interval) (config : a.qcfg = b.qcfg)
    (none : a.batch = 0) (some : b.batch ≠ 0) : ∃ c', a.merge b = .ok c' ∧ KeepsHistory interval a b c' := by
  refine ⟨{ b with kStep := a.kStep }, by simp [merge, config, none, some, pure, Except.pure], by simp [none], ?_, ?_⟩
  · intro i la lb atA atB kind
    obtain ⟨conv, recur⟩ := Linear.rows_nil (none ▸ wfA.linear i la atA kind)
    exact ⟨lb, atB, by rw [conv, List.nil_append], by rw [recur, List.nil_append]⟩
  · intro i la lb _ atB kind
    refine ⟨lb, atB, fun r inside => by omega, fun r inside => ?_⟩
    rw [none, Nat.zero_add]
    exact (wfB.full i lb atB kind).holds inside

/-- A full-attention layer merged to a capacity that covers the write index keeps every row. -/
theorem mergeLayer_shows {la lb : Layer V} {M m : Nat} (left : la.Written a.batch a.len m)
    (right : lb.Written b.batch b.len m) (fits : max a.len b.len ≤ M) :
    ∃ l', mergeLayer (max a.len b.len : Nat) M a.len b.len la lb = .ok l' ∧ ShowsBoth a b la lb l' := by
  obtain ⟨l', ok, written, readsA, readsB, _⟩ :=
    mergeLayer_spec left right (Nat.le_max_left _ _) (Nat.le_max_right _ _) fits
  refine ⟨l', ok, fun r inside => ?_, fun r inside => ?_⟩
  · rw [← moved_view (Nat.le_max_left a.len b.len) fun t below => readsA r t inside below]
    exact written.holds (Nat.lt_add_right _ inside)
  · rw [← moved_view (Nat.le_max_right a.len b.len) fun t below => readsB r t below]
    exact written.holds (Nat.add_lt_add_left inside _)

theorem keeps_of_fits (wfA : a.HybridWf interval) (wfB : b.HybridWf interval) (config : a.qcfg = b.qcfg)
    (someA : a.batch ≠ 0) (someB : b.batch ≠ 0)
    (fits : ∀ i < a.layers.length, isLinearLayer interval i = false → max a.len b.len ≤ max a.sCap b.sCap) :
    ∃ c', a.merge b = .ok c' ∧ KeepsHistory interval a b c' :=
  keeps_of_layers wfA wfB config someA someB fun i la lb atA atB kind =>
    mergeLayer_shows (wfA.full i la atA kind) (config ▸ wfB.full i lb atB kind)
      (fits i (List.getElem?_eq_some_iff.mp atA).1 kind)

omit [Slot V] in
theorem sCap_full (wf : a.HybridWf interval) (first : isLinearLayer interval 0 = false)
    (some : 0 < a.layers.length) : a.len ≤ a.sCap := by
  unfold sCap
  cases layers : a.layers with
  | nil => rw [layers] at some; exact absurd some (Nat.lt_irrefl 0)
  | cons l _ =>
    have written := wf.full 0 l (by rw [layers]; rfl) first
    obtain ⟨cap, room, stored⟩ := written.keysRoom
    have nonempty : l.keys ≠ [] := by
      intro empty
      have := written.keysCount
      rw [empty] at this
      exact absurd this (Nat.ne_of_lt a.qcfg.components_pos)
    simp only [seqLen_stored stored nonempty]
    exact room

omit [Slot V] in
theorem sCap_linear (wf : a.HybridWf interval) (first : isLinearLayer interval 0 = true) : a.sCap = 0 := by
  unfold sCap
  cases layers : a.layers with
  | nil => rfl
  | cons l _ => simp only [(wf.linear 0 l (by rw [layers]; rfl) first).blank.1, seqLen]

theorem keeps_of_hidden (wfA : a.HybridWf interval) (wfB : b.HybridWf interval) (config : a.qcfg = b.qcfg)
    (someA : a.batch ≠ 0) (someB : b.batch ≠ 0) (first : isLinearLayer interval 0 = true)
    (same : a.len = b.len) (hiddenA : a.Hidden) (hiddenB : b.Hidden) :
    ∃ c', a.merge b = .ok c' ∧ KeepsHistory interval a b c' := by
  have nothing : ∀ (l l' : Layer V) r r' lo, b.len ≤ lo → l'.Holds r' (lo + (b.len - b.len)) b.len (l.view r lo b.len) := by
    intro l l' r r' lo above
    refine ⟨?_, fun below => absurd below (by omega)⟩
    simp only [Layer.view]
    rw [window_empty (by omega), window_empty above]
  refine keeps_of_layers wfA wfB config someA someB fun i la lb atA atB kind => ?_
  obtain ⟨l', ok, _⟩ := mergeLayer_emptied (same ▸ wfA.full i la atA kind) (wfB.full i lb atB kind |> (config ▸ ·))
  rw [sCap_linear wfA first, sCap_linear wfB first, same, Nat.max_self]
  refine ⟨l', ok, fun r inside => ?_, fun r inside => ?_⟩
  · rw [same, Nat.max_self]
    exact nothing la l' r r _ (same ▸ hiddenA r inside)
  · rw [same, Nat.max_self]
    exact nothing lb l' r _ _ (hiddenB r inside)

/-- With a linear layer 0, a merge of two caches with rows keeps the history only when there is none. -/
theorem hidden_of_keeps (wfA : a.HybridWf interval) (wfB : b.HybridWf interval) (config : a.qcfg = b.qcfg)
    (count : a.layers.length = b.layers.length) (someA : a.batch ≠ 0) (someB : b.batch ≠ 0)
    (first : isLinearLayer interval 0 = true) {i : Nat} (inside : i < a.layers.length)
    (kind : isLinearLayer interval i = false) {c' : BatchKVCache V} (ok : a.merge b = .ok c')
    (keeps : KeepsHistory interval a b c') : a.idx = b.idx ∧ a.Hidden ∧ b.Hidden := by
  have idxA := wfA.idx_eq
  have idxB := wfB.idx_eq
  have atA : a.layers[i]? = some a.layers[i] := List.getElem?_eq_getElem inside
  have atB : b.layers[i]? = some b.layers[i] := List.getElem?_eq_getElem (count ▸ inside)
  have left := wfA.full i _ atA kind
  have right := wfB.full i _ atB kind
  rw [← config] at right
  rw [merge_live config someA someB idxA idxB, mergeLayers_eq, sCap_linear wfA first, sCap_linear wfB first] at ok
  obtain ⟨layers, merged, ok⟩ := bind_ok ok
  obtain rfl := pure_ok ok
  obtain ⟨l', found, layer⟩ := mapM_getElem merged (List.getElem?_zip_eq_some (z := (_, _)).mpr ⟨atA, atB⟩)
  have same : a.len = b.len := by
    by_contra differ
    rw [Nat.max_self, mergeLayer_fails left right a.qcfg.components_pos differ] at layer
    cases layer
  rw [← same] at right
  rw [← same, Nat.max_self, Nat.max_self] at layer
  obtain ⟨l'', emptied, keysCount, noSlots⟩ := mergeLayer_emptied left right
  obtain rfl := Except.ok.inj (layer.symm.trans emptied)
  obtain ⟨l'', found', showsA, showsB⟩ := keeps.full i _ _ atA atB kind
  obtain rfl := Option.some.inj (found.symm.trans found')
  obtain ⟨k, keyMember⟩ := List.exists_mem_of_ne_nil _ (List.ne_nil_of_length_pos
    (keysCount ▸ a.qcfg.components_pos))
  have room : ∀ {r lo es}, l'.Holds r lo (joined a b layers).len es → a.len ≤ lo := by
    intro r lo es holds
    rw [joined_len _ idxA idxB, ← same, Nat.max_self] at holds
    by_contra visible
    have := (holds.2 (by omega) k (List.mem_append_left _ keyMember)).2
    have := noSlots k keyMember
    omega
  refine ⟨by rw [idxA, idxB, same], fun r below => ?_, fun r below => ?_⟩
  · have start := room (showsA r below)
    rw [joined_start_left _ idxA idxB (wfA.paddings ▸ below) (wfA.padding_nonneg r), same, Nat.max_self] at start
    rw [same]
    omega
  · have start := room (showsB r below)
    rw [joined_start_right _ idxA idxB wfA.paddings (wfB.paddings ▸ below) (wfB.padding_nonneg r), same,
      Nat.max_self] at start
    omega

/-- `merge` keeps a hybrid model's attention history exactly on the safe inputs. -/
theorem merge_keeps_iff (wfA : a.HybridWf interval) (wfB : b.HybridWf interval) (config : a.qcfg = b.qcfg)
    (count : a.layers.length = b.layers.length) :
    (∃ c', a.merge b = .ok c' ∧ KeepsHistory interval a b c') ↔ MergeSafe interval a b := by
  constructor
  · rintro ⟨c', ok, keeps⟩
    by_cases someA : a.batch = 0
    · exact Or.inr (Or.inr (Or.inl someA))
    by_cases someB : b.batch = 0
    · exact Or.inr (Or.inr (Or.inr (Or.inl someB)))
    cases first : isLinearLayer interval 0 with
    | false => exact Or.inl first
    | true =>
      by_cases allLinear : ∀ i < a.layers.length, isLinearLayer interval i = true
      · exact Or.inr (Or.inl allLinear)
      · push Not at allLinear
        obtain ⟨i, inside, kind⟩ := allLinear
        exact Or.inr (Or.inr (Or.inr (Or.inr (hidden_of_keeps wfA wfB config count someA someB first inside
          (by simpa using kind) ok keeps))))
  · intro safe
    by_cases someB : b.batch = 0
    · exact keeps_empty_right wfA wfB config someB
    by_cases someA : a.batch = 0
    · exact keeps_empty_left wfA wfB config someA someB
    cases first : isLinearLayer interval 0 with
    | false =>
      refine keeps_of_fits wfA wfB config someA someB fun i inside _ => ?_
      have := sCap_full wfA first (by omega)
      have := sCap_full wfB first (by omega)
      omega
    | true =>
      rcases safe with full | allLinear | emptyA | emptyB | ⟨same, hiddenA, hiddenB⟩
      · rw [first] at full
        cases full
      · refine keeps_of_fits wfA wfB config someA someB fun i inside kind => ?_
        rw [allLinear i inside] at kind
        cases kind
      · exact absurd emptyA someA
      · exact absurd emptyB someB
      · exact keeps_of_hidden wfA wfB config someA someB first (by simp only [BatchKVCache.len, same]) hiddenA hiddenB

end

section witness

/-- A four-layer model's cache of one row after one token. -/
def tokenCache (interval x : Int) : BatchKVCache Int where
  batch := 1
  idx := 1
  layers := (List.range 4).map fun i => if isLinearLayer interval i
    then { convState := some [x], recurState := some [x] }
    else { keys := [⟨1, 256, fun _ _ => x⟩], values := [⟨1, 256, fun _ _ => x⟩] }
  offset := [1]
  leftPadding := [0]

theorem tokenCache_wf (interval x : Int) : (tokenCache interval x).HybridWf interval := by
  refine ⟨Int.one_nonneg, rfl, by simp [tokenCache], ?_, ?_⟩
  · intro i l found kind
    obtain ⟨inside, rfl⟩ := List.getElem?_eq_some_iff.mp found
    simp [tokenCache, kind]
    exact ⟨⟨rfl, rfl⟩, ⟨_, rfl, rfl⟩, ⟨_, rfl, rfl⟩⟩
  · intro i l found kind
    obtain ⟨inside, rfl⟩ := List.getElem?_eq_some_iff.mp found
    simp [tokenCache, kind]
    exact ⟨rfl, rfl, ⟨256, by simp [len], by simp [Stored]⟩, ⟨256, by simp [len], by simp [Stored]⟩⟩

theorem merge_keeps_full_attention :
    ∃ c', (tokenCache 1 5).merge (tokenCache 1 7) = .ok c' ∧
      KeepsHistory 1 (tokenCache 1 5) (tokenCache 1 7) c' :=
  (merge_keeps_iff (tokenCache_wf 1 5) (tokenCache_wf 1 7) rfl rfl).mpr (Or.inl (by decide))

/-- Every fourth layer full attention: two admitted rows lose their only token. -/
theorem merge_loses_history : (tokenCache 4 5).HybridWf 4 ∧ (tokenCache 4 7).HybridWf 4 ∧
    (tokenCache 4 5).qcfg = (tokenCache 4 7).qcfg ∧
    ¬ ∃ c', (tokenCache 4 5).merge (tokenCache 4 7) = .ok c' ∧
      KeepsHistory 4 (tokenCache 4 5) (tokenCache 4 7) c' := by
  refine ⟨tokenCache_wf 4 5, tokenCache_wf 4 7, rfl, ?_⟩
  rintro ⟨c', ok, keeps⟩
  obtain ⟨_, hidden, _⟩ := hidden_of_keeps (tokenCache_wf 4 5) (tokenCache_wf 4 7) rfl rfl (by decide)
    (by decide) (by decide) (i := 3) (by decide) (by decide) ok keeps
  exact absurd (hidden 0 (by decide)) (by decide)

end witness

end BatchKVCache

end Mlxforge
