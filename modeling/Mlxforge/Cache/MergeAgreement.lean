import Mlxforge.Cache.MergeInPlace

/-! Run without injected faults, the merge in place writes what `merge` returns, and throws when `merge` does. -/

namespace Mlxforge

open Std.Do Attempt

set_option mvcgen.warning false

variable {V : Type} [Slot V]

/-- The two sides of a merge hold as many components, and a state is there with its convolution. -/
structure Layer.Matches (a b : Layer V) : Prop where
  keys : a.keys.length = b.keys.length
  values : a.values.length = b.values.length
  sides : a.keys.length = a.values.length
  own : a.recurState.isSome = a.convState.isSome
  its : b.recurState.isSome = b.convState.isSome

namespace BatchKVCache

section
variable {c₀ other c : BatchKVCache V} {l : Nat}

omit [Slot V] in
theorem onLayer_onLayer (f g : Layer V → Layer V) : (c.onLayer l f).onLayer l g = c.onLayer l (g ∘ f) := by
  simp [onLayer, List.modify_modify_eq]

theorem zipComponents_range {as cs : List (KvArray V)} (same : as.length = cs.length) :
    zipComponents KvArray.concatBatch as cs = (List.range as.length).mapM (joinAt as cs) :=
  (mapM_range_zip _ _ (zipComponents KvArray.concatBatch) same rfl fun _ _ _ _ => rfl).symm

theorem concatComponents_agrees {ka kb va vb : List (KvArray V)} (c : BatchKVCache V) (l : Nat)
    (keys : ka.length = kb.length) (values : va.length = vb.length) (sides : ka.length = va.length) :
    ⦃fun s => ⌜s = c.onLayer l fun x => { x with keys := [], values := [] }⌝⦄ concatComponents quiet l ka kb va vb
    ⦃post⟨fun _ s => ⌜∃ ks vs, zipComponents KvArray.concatBatch ka kb = .ok ks ∧
          zipComponents KvArray.concatBatch va vb = .ok vs ∧
          s = c.onLayer l fun x => { x with keys := ks, values := vs }⌝,
      fun _ _ => ⌜(∃ e, zipComponents KvArray.concatBatch ka kb = .error e) ∨
        ∃ e, zipComponents KvArray.concatBatch va vb = .error e⌝⟩⦄ := by
  rw [zipComponents_range keys, zipComponents_range values, ← sides]
  unfold concatComponents
  mvcgen invariants
  · post⟨fun xs s => ⌜∃ ks vs, ( List.Cursor.prefix xs.1).mapM (joinAt ka kb) = .ok ks ∧ ( List.Cursor.prefix xs.1).mapM (joinAt va vb) = .ok vs ∧
        s = c.onLayer l fun x => { x with keys := ks, values := vs }⌝,
      fun _ _ => ⌜(∃ e, (List.range ka.length).mapM (joinAt ka kb) = .error e) ∨
        ∃ e, (List.range ka.length).mapM (joinAt va vb) = .error e⌝⟩
  case vc1 =>
    rename_i loop _ _ h k _ joinedKeys _ v _ joinedValues _
    obtain ⟨rfl, key⟩ := joinedKeys
    obtain ⟨rfl, value⟩ := joinedValues
    obtain ⟨ks, vs, doneKeys, doneValues, rfl⟩ := h
    refine ⟨ks ++ [k], vs ++ [v], mapM_snoc doneKeys key, mapM_snoc doneValues value, ?_⟩
    change ((c.onLayer l _).onLayer l _).onLayer l _ = _
    rw [onLayer_onLayer, onLayer_onLayer]
    rfl
  case vc2 =>
    rename_i loop _ _ h k _ joinedKeys _ p
    obtain ⟨ks, vs, doneKeys, doneValues, rfl⟩ := h
    rintro _ rfl rfl (fault | ⟨e, stop⟩)
    · cases fault
    · rw [loop]
      exact .inr ⟨e, mapM_stops doneValues stop⟩
  case vc3 =>
    rename_i loop _ _ h p
    obtain ⟨ks, vs, doneKeys, doneValues, rfl⟩ := h
    rintro _ rfl rfl (fault | ⟨e, stop⟩)
    · cases fault
    · rw [loop]
      exact .inl ⟨e, mapM_stops doneKeys stop⟩
  case vc4 => exact ⟨[], [], rfl, rfl, ‹_›⟩

omit [Slot V] in
theorem onLayer_congr {f g : Layer V → Layer V} (same : f (c.layers.getD l {}) = g (c.layers.getD l {})) :
    c.onLayer l f = c.onLayer l g := by
  have layers : c.layers.modify l f = c.layers.modify l g := by
    by_cases inside : l < c.layers.length
    · rw [List.getD_eq_getElem _ _ inside] at same
      rw [List.modify_eq_take_cons_drop inside, List.modify_eq_take_cons_drop inside, same]
    · rw [List.modify_eq_self (by omega), List.modify_eq_self (by omega)]
  rw [onLayer, onLayer, layers]

omit [Slot V] in
theorem onLayer_field {β : Type} {f : Layer V → Layer V} (field : Layer V → β) (same : ∀ x, field (f x) = field x) :
    field ((c.onLayer l f).layers.getD l {}) = field (c.layers.getD l {}) := by
  by_cases inside : l < c.layers.length
  · simp [onLayer, List.getD_eq_getElem?_getD, inside, same]
  · simp [onLayer, List.modify_eq_self (by omega : c.layers.length ≤ l)]

omit [Slot V] in
theorem mergeState_alone {a b : Option (List V)} (alone : ¬ (a.isSome && b.isSome) = true) : mergeState a b = a := by
  cases a with
  | none => rfl
  | some x =>
    cases b with
    | none => rfl
    | some y => exact absurd rfl alone

def joinStates (own its x : Layer V) : Layer V :=
  { x with convState := mergeState own.convState its.convState, recurState := mergeState own.recurState its.recurState }

omit [Slot V] in
theorem concatStates_agrees (l : Nat) {own its : Layer V} (matching : own.Matches its) (c : BatchKVCache V)
    (conv : (c.layers.getD l {}).convState = own.convState) (recur : (c.layers.getD l {}).recurState = own.recurState) :
    ⦃fun s => ⌜s = c⌝⦄ concatStates quiet l own its
    ⦃post⟨fun _ s => ⌜s = c.onLayer l (joinStates own its)⌝, fun _ _ => ⌜False⌝⟩⦄ := by
  unfold concatStates
  mvcgen
  case vc1 =>
    rename_i start _ _ first _ _ _ second _
    subst start first second
    change (BatchKVCache.onLayer _ l _).onLayer l _ = _
    rw [onLayer_onLayer]
    rfl
  case vc2 =>
    rintro - - fault
    cases fault
  case vc3 =>
    rintro - - fault
    cases fault
  case vc4 =>
    rename_i alone s start
    subst start
    have same : s.onLayer l id = s := by simp [onLayer, List.modify_id]
    refine same.symm.trans (onLayer_congr ?_)
    have recurAlone : ¬ (own.recurState.isSome && its.recurState.isSome) = true := by
      rwa [matching.own, matching.its]
    rw [joinStates, mergeState_alone alone, mergeState_alone recurAlone, ← conv, ← recur]
    rfl

theorem padLayer_length {maxIdx maxSize idx : Int} {comps padded : List (KvArray V)}
    (ok : padLayer maxIdx maxSize idx comps = .ok padded) : padded.length = comps.length := mapM_length ok

section Turn

variable {maxIdx maxSize idxA idxB : Int} {a b : Layer V} {ka kb va vb : List (KvArray V)} {e : Fault}

theorem mergeLayer_ok {ks vs : List (KvArray V)} (left : padLayer maxIdx maxSize idxA a.keys = .ok ka)
    (right : padLayer maxIdx maxSize idxB b.keys = .ok kb) (left' : padLayer maxIdx maxSize idxA a.values = .ok va)
    (right' : padLayer maxIdx maxSize idxB b.values = .ok vb) (keys : zipComponents KvArray.concatBatch ka kb = .ok ks)
    (values : zipComponents KvArray.concatBatch va vb = .ok vs) :
    mergeLayer maxIdx maxSize idxA idxB a b = .ok (joinStates a b { a with keys := ks, values := vs }) := by
  simp only [mergeLayer, left, right, left', right', keys, values, ok_bind]
  rfl

theorem mergeLayer_stuck (left : padLayer maxIdx maxSize idxA a.keys = .ok ka)
    (right : padLayer maxIdx maxSize idxB b.keys = .ok kb) (left' : padLayer maxIdx maxSize idxA a.values = .ok va)
    (right' : padLayer maxIdx maxSize idxB b.values = .ok vb)
    (stop : (∃ e, zipComponents KvArray.concatBatch ka kb = .error e) ∨
      ∃ e, zipComponents KvArray.concatBatch va vb = .error e) :
    ∃ e, mergeLayer maxIdx maxSize idxA idxB a b = .error e := by
  simp only [mergeLayer, left, right, left', right', ok_bind]
  obtain ⟨e, stop⟩ | ⟨e, stop⟩ := stop
  · exact ⟨e, by rw [stop]; rfl⟩
  · rw [stop]
    cases zipComponents KvArray.concatBatch ka kb with
    | error d => exact ⟨d, rfl⟩
    | ok ks => exact ⟨e, rfl⟩

theorem mergeLayer_unpadded (stop : padLayer maxIdx maxSize idxA a.keys = .error e ∨ padLayer maxIdx maxSize idxB b.keys = .error e ∨
      padLayer maxIdx maxSize idxA a.values = .error e ∨ padLayer maxIdx maxSize idxB b.values = .error e) :
    ∃ e, mergeLayer maxIdx maxSize idxA idxB a b = .error e := by
  unfold mergeLayer
  cases left : padLayer maxIdx maxSize idxA a.keys with
  | error d => exact ⟨d, rfl⟩
  | ok ka =>
    cases right : padLayer maxIdx maxSize idxB b.keys with
    | error d => exact ⟨d, rfl⟩
    | ok kb =>
      cases left' : padLayer maxIdx maxSize idxA a.values with
      | error d => exact ⟨d, rfl⟩
      | ok va =>
        cases right' : padLayer maxIdx maxSize idxB b.values with
        | error d => exact ⟨d, rfl⟩
        | ok vb => simp [left, right, left', right'] at stop

end Turn

/-- A turn of the loop is `mergeLayer`, which throws when the turn does. -/
theorem mergeLayerInPlace_agrees (maxIdx maxSize : Int) (l : Nat) (c : BatchKVCache V)
    (matching : Layer.Matches (c.layers.getD l {}) (other.layers.getD l {})) :
    ⦃fun s => ⌜s = c⌝⦄ mergeLayerInPlace quiet maxIdx maxSize other l
    ⦃post⟨fun _ s => ⌜∃ m, mergeLayer maxIdx maxSize c.idx other.idx (c.layers.getD l {}) (other.layers.getD l {}) = .ok m ∧
          s = c.onLayer l fun _ => m⌝,
      fun _ _ => ⌜∃ e, mergeLayer maxIdx maxSize c.idx other.idx (c.layers.getD l {}) (other.layers.getD l {}) = .error e⌝⟩⦄ := by
  unfold mergeLayerInPlace
  mvcgen [concatComponents_agrees, concatStates_agrees]
  case vc1 =>
    rename_i start _ _ _ _ ka _ _ kb _ _ va _ _ vb _
    subst start
    rw [padLayer_length ka.2, padLayer_length kb.2, matching.keys]
  case vc2 =>
    rename_i start _ _ _ _ ka _ _ kb _ _ va _ _ vb _
    subst start
    rw [padLayer_length va.2, padLayer_length vb.2, matching.values]
  case vc3 =>
    rename_i start _ _ _ _ ka _ _ kb _ _ va _ _ vb _
    subst start
    rw [padLayer_length ka.2, padLayer_length va.2, matching.sides]
  case vc4 =>
    rename_i start _ _ _ _ ka _ _ kb _ _ va _ _ vb _ _ _ h _ _
    subst start
    obtain ⟨rfl, ka⟩ := ka
    obtain ⟨rfl, kb⟩ := kb
    obtain ⟨rfl, va⟩ := va
    obtain ⟨rfl, vb⟩ := vb
    obtain ⟨ks, vs, keys, values, rfl⟩ := h
    rintro rfl
    refine ⟨_, mergeLayer_ok ka kb va vb keys values, ?_⟩
    rw [onLayer_onLayer]
    exact onLayer_congr rfl
  case vc5 =>
    rename_i start _ _ _ _ _ _ _ _ _ _ _ _ _ _ _ _
    subst start
    exact fun _ _ => matching
  case vc6 =>
    rename_i start _ _ _ _ ka _ _ kb _ _ va _ _ vb _ _
    rintro _ ⟨ks, vs, -, -, rfl⟩
    refine (onLayer_field Layer.convState ?_).trans ?_
    · exact fun _ => rfl
    · rw [vb.1, va.1, kb.1, ka.1]
  case vc7 =>
    rename_i start _ _ _ _ ka _ _ kb _ _ va _ _ vb _ _
    rintro _ ⟨ks, vs, -, -, rfl⟩
    refine (onLayer_field Layer.recurState ?_).trans ?_
    · exact fun _ => rfl
    · rw [vb.1, va.1, kb.1, ka.1]
  case vc8 =>
    rename_i start _ _ _ _ ka _ _ kb _ _ va _ _ vb _ _ _
    subst start
    exact mergeLayer_stuck ka.2 kb.2 va.2 vb.2
  case vc9 =>
    rename_i start _ _ _ _ _ _ _ _ _ _ _ _ _
    subst start
    rintro - - (fault | ⟨e, stop⟩)
    · cases fault
    · exact mergeLayer_unpadded (.inr (.inr (.inr stop)))
  case vc10 =>
    rename_i start _ _ _ _ _ _ _ _ _ _
    subst start
    rintro - - (fault | ⟨e, stop⟩)
    · cases fault
    · exact mergeLayer_unpadded (.inr (.inr (.inl stop)))
  case vc11 =>
    rename_i start _ _ _ _ _ _ _
    subst start
    rintro - - (fault | ⟨e, stop⟩)
    · cases fault
    · exact mergeLayer_unpadded (.inr (.inl stop))
  case vc12 =>
    rename_i start _ _ _ _
    subst start
    rintro - - (fault | ⟨e, stop⟩)
    · cases fault
    · exact mergeLayer_unpadded (.inl stop)

theorem mergeLayers_range {maxIdx maxSize idxA idxB : Int} {as bs : List (Layer V)} (same : as.length = bs.length) :
    mergeLayers maxIdx maxSize idxA idxB as bs =
      (List.range as.length).mapM fun l => mergeLayer maxIdx maxSize idxA idxB (as.getD l {}) (bs.getD l {}) :=
  (mapM_range_zip _ _ (mergeLayers maxIdx maxSize idxA idxB) same rfl fun _ _ _ _ => rfl).symm

/-- The cache whose first layers are merged. -/
def mergedUpTo (c : BatchKVCache V) (done : List (Layer V)) : BatchKVCache V :=
  { c with layers := done ++ c.layers.drop done.length }

omit [Slot V] in
theorem mergedUpTo_layer (done : List (Layer V)) :
    (c.mergedUpTo done).layers.getD done.length {} = c.layers.getD done.length {} := by
  simp [mergedUpTo, List.getD_eq_getElem?_getD, List.getElem?_append_right]

omit [Slot V] in
theorem mergedUpTo_step {done : List (Layer V)} {m : Layer V} (inside : done.length < c.layers.length) :
    (c.mergedUpTo done).onLayer done.length (fun _ => m) = c.mergedUpTo (done ++ [m]) := by
  have reach : done.length < (done ++ c.layers.drop done.length).length := by simp; omega
  have layers : (done ++ c.layers.drop done.length).modify done.length (fun _ => m) =
      done ++ [m] ++ c.layers.drop (done ++ [m]).length := by
    rw [List.modify_eq_take_cons_drop reach]
    simp [List.drop_append]
  rw [mergedUpTo, onLayer, layers, mergedUpTo]

/-- The merge of layer `l` of two caches. -/
def mergeTurn (c other : BatchKVCache V) (l : Nat) : Except Fault (Layer V) :=
  mergeLayer (max c.idx other.idx) (max (c.sCap : Int) other.sCap) c.idx other.idx (c.layers.getD l {})
    (other.layers.getD l {})

section Whole

variable (same : c.qcfg = other.qcfg) (some : other.batch ≠ 0) (live : c.batch ≠ 0)
  (lengths : c.layers.length = other.layers.length)
include same some live lengths

theorem merge_ok {layers : List (Layer V)} (done : (List.range c.layers.length).mapM (mergeTurn c other) = .ok layers) :
    c.merge other = .ok { c.mergedUpTo layers with
      leftPadding := c.leftPadding.map (· + (max c.idx other.idx - c.idx)) ++
        other.leftPadding.map (· + (max c.idx other.idx - other.idx))
      offset := c.offset ++ other.offset
      idx := max c.idx other.idx
      batch := c.batch + other.batch } := by
  have walk : mergeLayers (max c.idx other.idx) (max (c.sCap : Int) other.sCap) c.idx other.idx c.layers other.layers =
      .ok layers := (mergeLayers_range lengths).trans done
  have count : layers.length = c.layers.length := (mapM_length done).trans List.length_range
  have all : layers ++ c.layers.drop layers.length = layers := by rw [count, List.drop_length, List.append_nil]
  rw [merge, if_neg (not_not_intro same)]
  simp only [if_neg some, if_neg live, walk, ok_bind, mergedUpTo, all]
  rfl

theorem merge_stops {e : Fault} (stop : (List.range c.layers.length).mapM (mergeTurn c other) = .error e) :
    c.merge other = .error e := by
  have walk : mergeLayers (max c.idx other.idx) (max (c.sCap : Int) other.sCap) c.idx other.idx c.layers other.layers =
      .error e := (mergeLayers_range lengths).trans stop
  rw [merge, if_neg (not_not_intro same)]
  simp only [if_neg some, if_neg live, walk]
  rfl

end Whole

/-- Where the loop over the layers is: those before `l` are merged, and the turn at `l` reads layer `l` as it was. -/
theorem mergedUpTo_at {k l : Nat} {before after : List Nat} {done : List (Layer V)}
    (loop : List.range k = before ++ l :: after) (merged : before.mapM (mergeTurn c other) = .ok done) :
    l = done.length ∧ l < k ∧ (c.mergedUpTo done).layers.getD l {} = c.layers.getD l {} := by
  obtain ⟨cursor, inside⟩ := range_cursor loop
  have front : l = done.length := cursor.trans (mapM_length merged).symm
  exact ⟨front, inside, front ▸ mergedUpTo_layer done⟩

/-- Without injected faults, `merge` in place is `merge`. -/
theorem mergeInPlace_agrees (matching : List.Forall₂ Layer.Matches c.layers other.layers) :
    ⦃fun s => ⌜s = c⌝⦄ mergeInPlace quiet other
    ⦃post⟨fun _ s => ⌜c.merge other = .ok s⌝, fun _ _ => ⌜∃ e, c.merge other = .error e⌝⟩⦄ := by
  have lengths := matching.length_eq
  unfold mergeInPlace
  mvcgen [mergeLayerInPlace_agrees] invariants
  · post⟨fun xs s => ⌜∃ done, ( List.Cursor.prefix xs.1).mapM (mergeTurn c other) = .ok done ∧ s = c.mergedUpTo done⌝,
      fun _ _ => ⌜∃ e, c.merge other = .error e⌝⟩
  case vc1 =>
    rename_i start differ
    subst start
    exact ⟨.configsDiffer, by rw [merge, if_pos differ]; rfl⟩
  case vc2 =>
    rename_i start same none
    subst start
    rw [merge, if_neg same]
    simp only [if_pos none]
    rfl
  case vc3 =>
    rename_i start same some none
    subst start
    rw [merge, if_neg same]
    simp only [if_neg some, if_pos none]
    rfl
  case vc4 =>
    rename_i start _ _ _ _ _ before l after loop _ s h
    subst start
    obtain ⟨done, merged, rfl⟩ := h
    obtain ⟨-, inside, reads⟩ := mergedUpTo_at loop merged
    rw [reads, List.getD_eq_getElem _ _ inside, List.getD_eq_getElem _ _ (lengths ▸ inside)]
    exact matching.get inside (lengths ▸ inside)
  case vc5 =>
    rename_i start _ _ _ _ _ before l after loop _ s h _ t turn
    subst start
    obtain ⟨done, merged, rfl⟩ := h
    obtain ⟨m, turn, rfl⟩ := turn
    obtain ⟨rfl, inside, reads⟩ := mergedUpTo_at loop merged
    rw [reads] at turn
    exact ⟨done ++ [m], mapM_snoc merged turn, mergedUpTo_step inside⟩
  case vc6 =>
    rename_i start same some live _ _ before l after loop _ s h _
    subst start
    obtain ⟨done, merged, rfl⟩ := h
    rintro _ ⟨e, stop⟩
    rw [(mergedUpTo_at loop merged).2.2] at stop
    exact ⟨e, merge_stops (not_not.mp same) some live lengths (loop ▸ mapM_stops merged stop)⟩
  case vc7 =>
    rename_i start _ _ _ _ _
    subst start
    exact ⟨[], rfl, rfl⟩
  case vc8 =>
    rename_i start same some live _ _ _ _ h _ _ first _ _ _ second _ _ _
    subst start first second
    obtain ⟨done, merged, rfl⟩ := h
    rintro rfl
    exact merge_ok (not_not.mp same) some live lengths merged
  all_goals
    rintro - - fault
    cases fault

end
end BatchKVCache
end Mlxforge
