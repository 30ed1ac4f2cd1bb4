import Mlxforge.Cache.RowMerge
import Mlxforge.Lib.Attempt

/-!
`merge` as it writes the cache: layer by layer, with the calls that can throw between the writes. What an exception
leaves is the cache as it was as long as layer 0 is only being padded, and a cache of other rows from then on.
-/

namespace Mlxforge

open Std.Do Attempt

set_option mvcgen.warning false

variable {V : Type} [Slot V]

/-- A place in `merge` where a call can throw. -/
inductive MergePoint where
  | configs
  /-- Padding one of the four component vectors of a layer: own keys, other's keys, own values, other's values. -/
  | pad (layer vector : Nat)
  | concatKeys (layer component : Nat)
  | concatValues (layer component : Nat)
  | convState (layer : Nat)
  | recurState (layer : Nat)
  | leftPadding
  | offset
  | eval
  deriving DecidableEq, Repr

namespace BatchKVCache

/-- A write to one layer. -/
def onLayer (c : BatchKVCache V) (l : Nat) (f : Layer V → Layer V) : BatchKVCache V :=
  { c with layers := c.layers.modify l f }

/-- `mx::concatenate({as[i], cs[i]}, 0)`. -/
def joinAt (as cs : List (KvArray V)) (i : Nat) : Except Fault (KvArray V) :=
  (as.getD i (.zeros 0 0)).concatBatch (cs.getD i (.zeros 0 0))

section
variable (fails : MergePoint → Bool)

/-- The loop over the components of a layer whose vectors were cleared. -/
def concatComponents (l : Nat) (ka kb va vb : List (KvArray V)) : EStateM MergePoint (BatchKVCache V) Unit := do
  for i in List.range ka.length do
    let k ← call fails (.concatKeys l i) (joinAt ka kb i)
    modify (·.onLayer l fun x => { x with keys := x.keys ++ [k] })
    let v ← call fails (.concatValues l i) (joinAt va vb i)
    modify (·.onLayer l fun x => { x with values := x.values ++ [v] })

/-- A linear-attention layer's two states. -/
def concatStates (l : Nat) (own its : Layer V) : EStateM MergePoint (BatchKVCache V) Unit := do
  if own.convState.isSome && its.convState.isSome then
    reach fails (.convState l)
    modify (·.onLayer l fun x => { x with convState := mergeState own.convState its.convState })
    reach fails (.recurState l)
    modify (·.onLayer l fun x => { x with recurState := mergeState own.recurState its.recurState })

/-- One turn of the loop over the layers. -/
def mergeLayerInPlace (maxIdx maxSize : Int) (other : BatchKVCache V) (l : Nat) :
    EStateM MergePoint (BatchKVCache V) Unit := do
  let c ← get
  let own := c.layers.getD l {}
  let its := other.layers.getD l {}
  let ka ← call fails (.pad l 0) (padLayer maxIdx maxSize c.idx own.keys)
  let kb ← call fails (.pad l 1) (padLayer maxIdx maxSize other.idx its.keys)
  let va ← call fails (.pad l 2) (padLayer maxIdx maxSize c.idx own.values)
  let vb ← call fails (.pad l 3) (padLayer maxIdx maxSize other.idx its.values)
  modify (·.onLayer l fun x => { x with keys := [], values := [] })
  concatComponents fails l ka kb va vb
  concatStates fails l own its

def mergeInPlace (other : BatchKVCache V) : EStateM MergePoint (BatchKVCache V) Unit := do
  let c ← get
  if c.qcfg ≠ other.qcfg then throw .configs
  else if other.batch = 0 then pure ()
  else if c.batch = 0 then set { other with kStep := c.kStep }
  else
    let maxIdx := max c.idx other.idx
    let maxSize : Int := max c.sCap other.sCap
    for l in List.range c.layers.length do
      mergeLayerInPlace fails maxIdx maxSize other l
    reach fails .leftPadding
    modify fun d =>
      let lpA := d.leftPadding.map (· + (maxIdx - d.idx))
      let lpB := other.leftPadding.map (· + (maxIdx - other.idx))
      { d with leftPadding := lpA ++ lpB }
    reach fails .offset
    modify fun d => { d with offset := d.offset ++ other.offset, idx := maxIdx, batch := d.batch + other.batch }
    reach fails .eval

end

end BatchKVCache

/-! ### What an exception leaves -/

/-- Nothing has been written when `merge` throws at this point. -/
def MergePoint.Early : MergePoint → Prop
  | .configs => True
  | .pad layer _ => layer = 0
  | _ => False

namespace BatchKVCache

/-- The rows the storage of layer 0 has. -/
def frontRows (c : BatchKVCache V) : Nat := ((c.layers.getD 0 {}).keys.getD 0 (.zeros 0 0)).batch

/-- Layer 0 has been written: it is cleared, or holds the rows of both caches. -/
def Overwritten (c₀ other c : BatchKVCache V) : Prop :=
  c.frontRows = 0 ∨ c.frontRows = c₀.frontRows + other.frontRows

/-- Both caches hold rows in their first layer. -/
def Keyed (c other : BatchKVCache V) : Prop := 0 < c.frontRows ∧ 0 < other.frontRows

theorem Stocked.frontRows {c : BatchKVCache V} (stocked : c.Stocked) (layers : c.layers ≠ []) : c.frontRows = c.batch := by
  obtain ⟨l, rest, split⟩ := List.exists_cons_of_ne_nil layers
  have written := stocked l (by rw [split]; exact List.mem_cons_self)
  obtain ⟨cap, -, stored⟩ := written.keysRoom
  have some : l.keys ≠ [] := by
    intro none
    have count := written.keysCount
    rw [none] at count
    unfold KVQuantConfig.components at count
    split at count <;> cases count
  obtain ⟨a, keys, held⟩ := List.exists_cons_of_ne_nil some
  rw [BatchKVCache.frontRows, split]
  change (l.keys.getD 0 _).batch = _
  rw [held]
  exact (stored a (by rw [held]; exact List.mem_cons_self)).1

/-- Caches with rows whose layers are all written are keyed. -/
theorem keyed_of_stocked {c other : BatchKVCache V} (own : c.Stocked) (its : other.Stocked) (rows : 0 < c.batch)
    (some : 0 < other.batch) (layers : c.layers ≠ []) (same : c.layers.length = other.layers.length) : Keyed c other := by
  have other_layers : other.layers ≠ [] := by
    intro none
    rw [none] at same
    exact layers (List.length_eq_zero_iff.mp same)
  exact ⟨own.frontRows layers ▸ rows, its.frontRows other_layers ▸ some⟩

section Torn

variable {fails : MergePoint → Bool} {c₀ other c : BatchKVCache V} {l n : Nat} {f : Layer V → Layer V}

theorem Overwritten.differs (torn : Overwritten c₀ other c) (keyed : Keyed c₀ other) : c ≠ c₀ := by
  rintro rfl
  obtain ⟨own, its⟩ := keyed
  rcases torn with none | both <;> omega

@[simp] theorem onLayer_frontRows (behind : 0 < l) : (c.onLayer l f).frontRows = c.frontRows := by
  have other : l ≠ 0 := by omega
  simp [frontRows, onLayer, List.getD_eq_getElem?_getD, other]

omit [Slot V] in
theorem onLayer_front (some : 0 < c.layers.length) : (c.onLayer 0 f).layers.getD 0 {} = f (c.layers.getD 0 {}) := by
  simp [onLayer, List.getD_eq_getElem?_getD, some]

omit [Slot V] in
@[simp] theorem onLayer_length : (c.onLayer l f).layers.length = c.layers.length := by simp [onLayer]

theorem concatComponents_behind (fails : MergePoint → Bool) (n : Nat) (behind : 0 < l) (ka kb va vb : List (KvArray V)) :
    ⦃fun s => ⌜s.frontRows = n⌝⦄ concatComponents fails l ka kb va vb
    ⦃post⟨fun _ s => ⌜s.frontRows = n⌝, fun p s => ⌜¬ p.Early ∧ s.frontRows = n⌝⟩⦄ := by
  unfold concatComponents
  mvcgen invariants
  · post⟨fun _ s => ⌜s.frontRows = n⌝, fun p s => ⌜¬ p.Early ∧ s.frontRows = n⌝⟩
  all_goals grind [MergePoint.Early, onLayer_frontRows]

theorem joinAt_batch {as cs : List (KvArray V)} {i : Nat} {r : KvArray V} (ok : joinAt as cs i = .ok r) :
    r.batch = (as.getD i (.zeros 0 0)).batch + (cs.getD i (.zeros 0 0)).batch := by
  unfold joinAt KvArray.concatBatch at ok
  split at ok
  · rw [← Except.ok.inj ok]
  · cases ok

/-- Layer 0 within the loop over its components, `before` being the components already joined: the first one has
`n` rows. -/
def Refilled (before : List Nat) (n : Nat) (s : BatchKVCache V) : Prop :=
  0 < s.layers.length ∧
    (before = [] ∧ (s.layers.getD 0 {}).keys = [] ∨ ∃ a rest, (s.layers.getD 0 {}).keys = a :: rest ∧ a.batch = n)

theorem Refilled.frontRows {before : List Nat} {s : BatchKVCache V} (h : Refilled before n s) :
    s.frontRows = 0 ∨ s.frontRows = n := by
  obtain ⟨-, ⟨-, empty⟩ | ⟨a, rest, keys, rows⟩⟩ := h
  · exact .inl (by rw [BatchKVCache.frontRows, empty]; rfl)
  · exact .inr (by rw [BatchKVCache.frontRows, keys]; exact rows)

omit [Slot V] in
theorem Refilled.push {before : List Nat} {s : BatchKVCache V} {k : KvArray V} {i : Nat} (h : Refilled before n s)
    (first : before = [] → k.batch = n) :
    Refilled (before ++ [i]) n (s.onLayer 0 fun x => { x with keys := x.keys ++ [k] }) := by
  obtain ⟨some, h⟩ := h
  refine ⟨by simpa using some, .inr ?_⟩
  rw [onLayer_front some]
  obtain ⟨none, empty⟩ | ⟨a, rest, keys, rows⟩ := h
  · exact ⟨k, [], by rw [empty]; rfl, first none⟩
  · exact ⟨a, rest ++ [k], by rw [keys]; rfl, rows⟩

omit [Slot V] in
theorem Refilled.write {before : List Nat} {s : BatchKVCache V} (h : Refilled before n s)
    (same : ∀ x, (f x).keys = x.keys) : Refilled before n (s.onLayer 0 f) := by
  obtain ⟨some, h⟩ := h
  refine ⟨by simpa using some, ?_⟩
  rwa [onLayer_front some, same]

theorem concatComponents_front (ka kb va vb : List (KvArray V)) :
    ⦃fun s => ⌜Refilled [] ((ka.getD 0 (.zeros 0 0)).batch + (kb.getD 0 (.zeros 0 0)).batch) s⌝⦄
    concatComponents fails 0 ka kb va vb
    ⦃post⟨fun _ s => ⌜∃ before, Refilled before ((ka.getD 0 (.zeros 0 0)).batch + (kb.getD 0 (.zeros 0 0)).batch) s⌝,
      fun p s => ⌜¬ p.Early ∧
        ∃ before, Refilled before ((ka.getD 0 (.zeros 0 0)).batch + (kb.getD 0 (.zeros 0 0)).batch) s⌝⟩⦄ := by
  unfold concatComponents
  generalize joined : (ka.getD 0 (.zeros 0 0)).batch + (kb.getD 0 (.zeros 0 0)).batch = n
  have push {s : BatchKVCache V} {before after : List Nat} {i : Nat} {k : KvArray V}
      (loop : List.range ka.length = before ++ i :: after) (h : Refilled before n s)
      (ok : joinAt ka kb i = .ok k) :
      Refilled (before ++ [i]) n (s.onLayer 0 fun x => { x with keys := x.keys ++ [k] }) := by
    refine h.push fun none => ?_
    obtain rfl : i = 0 := by rw [(range_cursor loop).1, none]; rfl
    rw [joinAt_batch ok, joined]
  mvcgen invariants
  · post⟨fun xs s => ⌜Refilled ( List.Cursor.prefix xs.1) n s⌝, fun p s => ⌜¬ p.Early ∧ ∃ before, Refilled before n s⌝⟩
  case vc1 =>
    rename_i before i after loop _ _ h k _ joinedKeys _ v _ joinedValues _
    obtain ⟨rfl, keys⟩ := joinedKeys
    obtain ⟨rfl, _⟩ := joinedValues
    exact (push loop h keys).write fun _ => rfl
  case vc2 =>
    rename_i before i after loop _ _ h k _ joinedKeys _ p
    obtain ⟨rfl, keys⟩ := joinedKeys
    rintro _ rfl rfl -
    exact ⟨id, _, push loop h keys⟩
  case vc3 =>
    rename_i before i after loop _ _ h p
    rintro _ rfl rfl -
    exact ⟨id, _, h⟩
  case vc5 => exact ⟨_, ‹_›⟩

omit [Slot V] in
theorem concatStates_spec (fails : MergePoint → Bool) {P : BatchKVCache V → Prop}
    (stable : ∀ s f, (∀ x : Layer V, (f x).keys = x.keys) → P s → P (s.onLayer l f)) (own its : Layer V) :
    ⦃fun s => ⌜P s⌝⦄ concatStates fails l own its ⦃post⟨fun _ s => ⌜P s⌝, fun p s => ⌜¬ p.Early ∧ P s⌝⟩⦄ := by
  unfold concatStates
  mvcgen
  case vc1 =>
    rename_i h _ _ first _ _ _ second _
    subst first second
    exact stable _ _ (fun _ => rfl) (stable _ _ (fun _ => rfl) h)
  case vc2 =>
    rename_i h _ _ first _ _ _
    subst first
    rintro rfl rfl -
    exact ⟨id, stable _ _ (fun _ => rfl) h⟩
  case vc3 =>
    rename_i h _ _
    rintro rfl rfl -
    exact ⟨id, h⟩

theorem pad_batch {a r : KvArray V} {left right : Int} (ok : a.pad left right = .ok r) : r.batch = a.batch := by
  unfold KvArray.pad at ok
  split at ok
  · cases ok
  · rw [← Except.ok.inj ok]

theorem justify_batch {maxIdx maxSize idx : Int} {a r : KvArray V} (ok : justify maxIdx maxSize idx a = .ok r) :
    r.batch = a.batch := by
  have trimmed : (if maxSize - a.cap - (maxIdx - idx) < 0 then a.sliceSeq 0 (a.cap + (maxSize - a.cap - (maxIdx - idx)))
      else a).batch = a.batch := by split <;> rfl
  unfold justify at ok
  by_cases moves : maxIdx - idx ≠ 0 ∨
      (if maxSize - a.cap - (maxIdx - idx) < 0 then 0 else maxSize - a.cap - (maxIdx - idx)) ≠ 0
  · rw [if_pos moves] at ok
    exact (pad_batch ok).trans trimmed
  · rw [if_neg moves] at ok
    rwa [← Except.ok.inj ok]

theorem padLayer_front {maxIdx maxSize idx : Int} {comps padded : List (KvArray V)}
    (ok : padLayer maxIdx maxSize idx comps = .ok padded) :
    (padded.getD 0 (.zeros 0 0)).batch = (comps.getD 0 (.zeros 0 0)).batch := by
  cases comps with
  | nil =>
    obtain rfl := pure_ok ok
    rfl
  | cons a comps =>
    rw [padLayer, List.mapM_cons] at ok
    obtain ⟨r, head, ok⟩ := bind_ok ok
    obtain ⟨rs, -, ok⟩ := bind_ok ok
    rw [← pure_ok ok]
    exact justify_batch head

theorem mergeLayerInPlace_behind (behind : 0 < l) (maxIdx maxSize : Int) :
    ⦃fun s => ⌜s.frontRows = n⌝⦄ mergeLayerInPlace fails maxIdx maxSize other l
    ⦃post⟨fun _ s => ⌜s.frontRows = n⌝, fun p s => ⌜¬ p.Early ∧ s.frontRows = n⌝⟩⦄ := by
  have pad {vector : Nat} : ¬ (MergePoint.pad l vector).Early := Nat.ne_of_gt behind
  have components := concatComponents_behind (V := V) fails n behind
  have states := concatStates_spec fails (P := fun s : BatchKVCache V => s.frontRows = n)
    fun s f _ h => (onLayer_frontRows behind).trans h
  unfold mergeLayerInPlace
  mvcgen [components, states]
  case vc1 =>
    rename_i h _ _ _ _ ka _ _ kb _ _ va _ _ vb _
    rw [onLayer_frontRows behind, vb.1, va.1, kb.1, ka.1, h]
  all_goals
    rintro rfl rfl -
    grind

theorem Refilled.overwritten {maxIdx maxSize : Int} {before : List Nat} {ka kb : List (KvArray V)} {s : BatchKVCache V}
    (h : Refilled before ((ka.getD 0 (.zeros 0 0)).batch + (kb.getD 0 (.zeros 0 0)).batch) s)
    (left : padLayer maxIdx maxSize c₀.idx (c₀.layers.getD 0 {}).keys = .ok ka)
    (right : padLayer maxIdx maxSize other.idx (other.layers.getD 0 {}).keys = .ok kb) : Overwritten c₀ other s := by
  rw [padLayer_front left, padLayer_front right] at h
  exact h.frontRows

theorem mergeLayerInPlace_front (fails : MergePoint → Bool) (other : BatchKVCache V) (some : 0 < c₀.layers.length)
    (maxIdx maxSize : Int) :
    ⦃fun s => ⌜s = c₀⌝⦄ mergeLayerInPlace fails maxIdx maxSize other 0
    ⦃post⟨fun _ s => ⌜Overwritten c₀ other s⌝,
      fun p s => ⌜(p.Early → s = c₀) ∧ (¬ p.Early → Overwritten c₀ other s)⌝⟩⦄ := by
  have states (n : Nat) := concatStates_spec fails (P := fun s : BatchKVCache V => ∃ before, Refilled before n s)
    fun s f same h => h.imp fun before h => h.write same
  unfold mergeLayerInPlace
  mvcgen [concatComponents_front, states]
  case vc1 =>
    rename_i start own its ka _ left kb _ right va _ left' vb _ right' _
    subst start
    obtain ⟨rfl, -⟩ := left
    obtain ⟨rfl, -⟩ := right
    obtain ⟨rfl, -⟩ := left'
    obtain ⟨rfl, -⟩ := right'
    refine ⟨some.trans_eq onLayer_length.symm, .inl ⟨rfl, ?_⟩⟩
    rw [onLayer_front some]
  case vc3 =>
    rename_i start own its ka _ left kb _ right _ _ _ _ _ _ _ _ _ _ _ _
    subst start
    rintro ⟨before, h⟩
    exact h.overwritten left.2 right.2
  case vc4 =>
    rename_i start own its ka _ left kb _ right _ _ _ _ _ _ _ _ _ _ _ _
    subst start
    rintro late ⟨before, h⟩
    exact ⟨fun early => absurd early late, fun _ => h.overwritten left.2 right.2⟩
  case vc6 =>
    rename_i start own its ka _ left kb _ right _ _ _ _ _ _ _ _ _
    subst start
    rintro late ⟨before, h⟩
    exact ⟨fun early => absurd early late, fun _ => h.overwritten left.2 right.2⟩
  all_goals
    rintro rfl rfl -
    exact ⟨fun _ => by grind, fun late => absurd rfl late⟩

theorem mergeLayerInPlace_spec (fails : MergePoint → Bool) (c₀ other : BatchKVCache V) (maxIdx maxSize : Int) (l : Nat) :
    ⦃fun s => ⌜(l = 0 → s = c₀ ∧ 0 < c₀.layers.length) ∧ (0 < l → Overwritten c₀ other s)⌝⦄
    mergeLayerInPlace fails maxIdx maxSize other l
    ⦃post⟨fun _ s => ⌜Overwritten c₀ other s⌝,
      fun p s => ⌜(p.Early → s = c₀) ∧ (¬ p.Early → Overwritten c₀ other s)⌝⟩⦄ := by
  cases l with
  | zero =>
    by_cases some : 0 < c₀.layers.length
    · have front := mergeLayerInPlace_front fails other some
      mvcgen [front]
      grind
    · mvcgen
      grind
  | succ l =>
    mvcgen [mergeLayerInPlace_behind]
    case vc1 =>
      rename_i before _ _
      intro same
      exact before.2 (by omega) |>.imp same.trans same.trans
    case vc2 =>
      rename_i before _ _
      intro late same
      exact ⟨fun early => absurd early late, fun _ => before.2 (by omega) |>.imp same.trans same.trans⟩
    case vc3 => exact fun _ _ _ => l.succ_pos

/-- All layers visited: without layers there was nothing to write. -/
theorem overwritten_of_walked {s : BatchKVCache V} (blank : List.range c₀.layers.length = [] → s = c₀)
    (torn : List.range c₀.layers.length ≠ [] → Overwritten c₀ other s) : Overwritten c₀ other s := by
  by_cases none : List.range c₀.layers.length = []
  · have layers : c₀.layers = [] := by simpa using none
    rw [blank none]
    exact .inl (by rw [frontRows, layers]; rfl)
  · exact torn none

/-- What `merge` leaves when it throws. -/
theorem mergeInPlace_spec :
    ⦃fun s => ⌜s = c₀⌝⦄ mergeInPlace fails other
    ⦃post⟨fun _ _ => ⌜True⌝, fun p s => ⌜(p.Early → s = c₀) ∧ (¬ p.Early → Overwritten c₀ other s)⌝⟩⦄ := by
  have turn := mergeLayerInPlace_spec fails c₀ other
  unfold mergeInPlace
  mvcgen [turn] invariants
  · post⟨fun xs s => ⌜( List.Cursor.prefix xs.1 = [] → s = c₀) ∧ ( List.Cursor.prefix xs.1 ≠ [] → Overwritten c₀ other s)⌝,
      fun p s => ⌜(p.Early → s = c₀) ∧ (¬ p.Early → Overwritten c₀ other s)⌝⟩
  case vc1 => exact ⟨fun _ => ‹_›, fun late => absurd trivial late⟩
  case vc2 =>
    rename_i start _ _ _ _ _ before l after loop _ s h
    subst start
    obtain ⟨rfl, inside⟩ := range_cursor loop
    exact ⟨fun first => ⟨h.1 (List.length_eq_zero_iff.mp first), Nat.zero_lt_of_lt inside⟩,
      fun later => h.2 (List.length_pos_iff.mp later)⟩
  case vc3 => exact ⟨fun none => by simp at none, fun _ => ‹_›⟩
  case vc5 => exact ⟨‹_›, fun some => absurd rfl some⟩
  case vc7 =>
    rename_i start _ _ _ _ _ _ _ h _ _ first _ _ _ second _ _ _
    subst start first second
    rintro rfl rfl -
    have torn : Overwritten _ other _ := overwritten_of_walked h.1 h.2
    exact ⟨False.elim, fun _ => torn⟩
  case vc8 =>
    rename_i start _ _ _ _ _ _ _ h _ _ first _ _ _
    subst start first
    rintro rfl rfl -
    have torn : Overwritten _ other _ := overwritten_of_walked h.1 h.2
    exact ⟨False.elim, fun _ => torn⟩
  case vc9 =>
    rename_i start _ _ _ _ _ _ _ h _ _
    subst start
    rintro rfl rfl -
    exact ⟨False.elim, fun _ => overwritten_of_walked h.1 h.2⟩

theorem mergeInPlace_throws {p : MergePoint} (run : mergeInPlace fails other c₀ = .error p c) :
    (p.Early → c = c₀) ∧ (¬ p.Early → Overwritten c₀ other c) :=
  thrown mergeInPlace_spec rfl run

end Torn
end BatchKVCache

end Mlxforge
