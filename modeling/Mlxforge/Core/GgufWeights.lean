import Mlxforge.Core.Gguf
import Mlxforge.Lib.Except
import Mlxforge.Lib.Fields

/-!
The tables of tensors: which canonical names there are, and what undoing the row permutation changes.
-/

namespace Mlxforge

variable {R : Type}

/-! ### Names -/

theorem dropSuffix_append {base suffix : Bytes} (seven : suffix.length = 7) : dropSuffix (base ++ suffix) = base := by
  have size : (base ++ suffix).length = base.length + 7 := by rw [List.length_append, seven]
  rw [dropSuffix, size, if_neg (by omega), Nat.add_sub_cancel, List.take_left]

theorem endsWith_append_iff {base suffix other : Bytes} (same : suffix.length = other.length) :
    endsWith (base ++ suffix) other ↔ suffix = other := by
  constructor
  · rintro ⟨front, whole⟩
    exact (List.append_inj' whole same.symm).2.symm
  · rintro rfl
    exact List.suffix_append base suffix

theorem suffix_length {suffix : Bytes}
    (member : suffix ∈ [Bytes.ofAscii ".weight", .ofAscii ".scales", .ofAscii ".biases"]) : suffix.length = 7 := by
  simp only [List.mem_cons, List.not_mem_nil, or_false] at member
  rcases member with rfl | rfl | rfl <;> rfl

theorem nameSuffix_append {base suffix : Bytes}
    (member : suffix ∈ [Bytes.ofAscii ".weight", .ofAscii ".scales", .ofAscii ".biases"]) :
    nameSuffix (base ++ suffix) = some suffix := by
  have seven := suffix_length member
  have ends : ∀ other : Bytes, other.length = 7 → decide (endsWith (base ++ suffix) other) = decide (suffix = other) := by
    intro other seven'
    apply decide_eq_decide.mpr
    exact endsWith_append_iff (seven.trans seven'.symm)
  rw [nameSuffix, List.find?_cons, List.find?_cons, List.find?_cons, ends (.ofAscii ".weight") rfl,
    ends (.ofAscii ".scales") rfl, ends (.ofAscii ".biases") rfl]
  simp only [List.mem_cons, List.not_mem_nil, or_false] at member
  rcases member with rfl | rfl | rfl <;> rfl

/-- A suffix is carried over to the canonical name. -/
theorem remapGgufKey_append {base suffix : Bytes}
    (member : suffix ∈ [Bytes.ofAscii ".weight", .ofAscii ".scales", .ofAscii ".biases"]) :
    remapGgufKey (base ++ suffix) = (remapBase base).map (· ++ suffix) := by
  rw [remapGgufKey, nameSuffix_append member]
  simp only [dropSuffix_append (suffix_length member)]

theorem nameSuffix_some {name suffix : Bytes} (found : nameSuffix name = some suffix) :
    suffix ∈ [Bytes.ofAscii ".weight", .ofAscii ".scales", .ofAscii ".biases"] ∧ ∃ base, name = base ++ suffix := by
  have ends := List.find?_some found
  obtain ⟨base, whole⟩ := of_decide_eq_true ends
  exact ⟨List.mem_of_find?_eq_some found, base, whole.symm⟩

theorem remapBlockModule_some {rest mapped : Bytes} (found : remapBlockModule rest = some mapped) :
    (rest, mapped) ∈ blockModules := by
  obtain ⟨front, back, whole, _⟩ := List.lookup_eq_some_iff.mp found
  rw [whole]
  exact List.mem_append_right front List.mem_cons_self

/-- A canonical name without a suffix does not end like scales. -/
theorem remapBase_not_scales {base mapped : Bytes} (found : remapBase base = some mapped) :
    ¬endsWith mapped (.ofAscii ".scales") := by
  unfold remapBase at found
  split_ifs at found
  · obtain rfl := Option.some.inj found
    decide
  · obtain rfl := Option.some.inj found
    decide
  · obtain rfl := Option.some.inj found
    decide
  · simp only at found
    split at found
    · cases found
    · obtain ⟨name, table, rfl⟩ := Option.map_eq_some_iff.mp found
      have long : ∀ p ∈ blockModules, 7 ≤ p.2.length ∧ ¬endsWith p.2 (.ofAscii ".scales") := by decide
      obtain ⟨seven, other⟩ := long _ (remapBlockModule_some table)
      intro ends
      exact other (List.suffix_of_suffix_length_le ends (List.suffix_append _ _) seven)

/-- Scales under a canonical name are scales under the name in the file. -/
theorem remapGgufKey_scales {name key : Bytes} (found : remapGgufKey name = some key)
    (ends : endsWith key (.ofAscii ".scales")) :
    ∃ base mapped, name = base ++ .ofAscii ".scales" ∧ remapBase base = some mapped ∧ key = mapped ++ .ofAscii ".scales" := by
  cases suffixed : nameSuffix name with
  | none =>
    rw [remapGgufKey, suffixed] at found
    exact absurd ends (remapBase_not_scales found)
  | some suffix =>
    obtain ⟨member, base, rfl⟩ := nameSuffix_some suffixed
    rw [remapGgufKey_append member] at found
    obtain ⟨mapped, base', rfl⟩ := Option.map_eq_some_iff.mp found
    have same : suffix = .ofAscii ".scales" := by
      exact (endsWith_append_iff (suffix_length member)).mp ends
    subst same
    exact ⟨base, mapped, rfl, base', rfl⟩

/-! ### The keys of the projections -/

theorem digit_small {n : Nat} {c : Char} (member : c ∈ (toString n).toList) : c.isDigit ∧ c.toNat < 256 := by
  rw [Nat.toString_eq_repr, Nat.toList_repr] at member
  have digit := Nat.isDigit_of_mem_toDigits (by decide) (by decide) member
  exact ⟨digit, Nat.lt_of_le_of_lt (Char.isDigit_iff_toNat.mp digit).2 (by decide)⟩

theorem decimal_no_dot (n : Nat) : '.'.toUInt8 ∉ Bytes.ofAscii (toString n) := by
  intro member
  obtain ⟨c, digit, same⟩ := List.mem_map.mp member
  obtain ⟨isDigit, small⟩ := digit_small digit
  have value : c.toNat = 46 := by
    have bytes := congrArg UInt8.toNat same
    rwa [UInt8.toNat_ofNat_of_lt' small] at bytes
  have low := (Char.isDigit_iff_toNat.mp isDigit).1
  rw [value] at low
  exact absurd low (by decide)

theorem decimal_inj {n m : Nat} (same : Bytes.ofAscii (toString n) = Bytes.ofAscii (toString m)) : n = m := by
  have decode : ∀ k : Nat, (Bytes.ofAscii (toString k)).map (fun b => Char.ofNat b.toNat) = (toString k).toList := by
    intro k
    unfold Bytes.ofAscii
    rw [List.map_map]
    conv_rhs => rw [← List.map_id (toString k).toList]
    apply List.map_congr_left
    intro c member
    rw [Function.comp_apply, UInt8.toNat_ofNat_of_lt' (digit_small member).2, Char.ofNat_toNat, id_eq]
  apply toString_nat_inj
  rw [← decode n, ← decode m, same]

def qkTails : List Bytes :=
  [Bytes.ofAscii "q_proj", .ofAscii "k_proj"].flatMap fun proj =>
    [Bytes.ofAscii ".weight", .ofAscii ".scales", .ofAscii ".biases"].map fun suf => proj ++ suf

theorem qkKeys_fst (c : GgufConfig R) (i : Nat) : (qkKeys c i).map Prod.fst =
    qkTails.map fun tail => Bytes.ofAscii "model.layers." ++ .ofAscii (toString i) ++ .ofAscii ".self_attn." ++ tail := by
  simp [qkKeys, qkTails]

/-- No tensor is unpermuted twice. -/
theorem qkKeys_nodup (c : GgufConfig R) (n : Nat) : (((List.range n).flatMap (qkKeys c)).map Prod.fst).Nodup := by
  rw [List.map_flatMap]
  apply List.nodup_flatMap.mpr
  constructor
  · intro i _
    rw [qkKeys_fst]
    exact List.Nodup.map (fun _ _ same => List.append_cancel_left same) (by decide)
  · apply List.Nodup.pairwise_of_forall_ne List.nodup_range
    intro i _ j _ different key left right
    simp only [qkKeys_fst] at left right
    obtain ⟨tail, _, rfl⟩ := List.mem_map.mp left
    obtain ⟨tail', _, same⟩ := List.mem_map.mp right
    have dotted : ∀ rest, Bytes.ofAscii ".self_attn." ++ rest = '.'.toUInt8 :: (Bytes.ofAscii "self_attn." ++ rest) :=
      fun _ => rfl
    simp only [List.append_assoc, List.append_cancel_left_eq, dotted] at same
    exact different (decimal_inj (field_append_inj (decimal_no_dot j) (decimal_no_dot i) same).1).symm

/-! ### Undoing the row permutation -/

theorem unpermuteKey_cases {headDim : Int} {k : Bytes × Int} {w w' : Tensors R}
    (ran : unpermuteKey headDim w k = .ok w') :
    (∀ a, w.lookup k.1 = some a → ∃ a', unpermuteQkRows a k.2 headDim = .ok a' ∧ w'.lookup k.1 = some a') ∧
      (∀ key, key ∈ w' ↔ key ∈ w) ∧ ∀ key, key ≠ k.1 → w'.lookup key = w.lookup key := by
  unfold unpermuteKey at ran
  split at ran
  · rename_i a found
    obtain ⟨a', rows, ran⟩ := bind_ok ran
    obtain rfl := pure_ok ran
    refine ⟨fun b found' => ?_, fun key => ?_, fun key other => AList.lookup_insert_ne other⟩
    · obtain rfl := Option.some.inj (found.symm.trans found')
      exact ⟨a', rows, AList.lookup_insert _⟩
    · rw [AList.mem_insert]
      constructor
      · rintro (rfl | member)
        · exact AList.lookup_isSome.mp (by rw [found]; rfl)
        · exact member
      · exact .inr
  · rename_i absent
    obtain rfl := Except.ok.inj ran
    refine ⟨fun a found => ?_, fun _ => Iff.rfl, fun _ _ => rfl⟩
    rw [absent] at found
    cases found

/-- The listed arrays are replaced, each once, and nothing else changes. -/
theorem foldlM_unpermuteKey {headDim : Int} {keys : List (Bytes × Int)} (nodup : (keys.map Prod.fst).Nodup)
    {w w' : Tensors R} (ran : keys.foldlM (unpermuteKey headDim) w = .ok w') :
    (∀ k ∈ keys, ∀ a, w.lookup k.1 = some a → ∃ a', unpermuteQkRows a k.2 headDim = .ok a' ∧ w'.lookup k.1 = some a') ∧
      (∀ key, key ∈ w' ↔ key ∈ w) ∧ ∀ key ∉ keys.map Prod.fst, w'.lookup key = w.lookup key := by
  induction keys generalizing w with
  | nil =>
    obtain rfl := pure_ok ran
    exact ⟨nofun, fun _ => Iff.rfl, fun _ _ => rfl⟩
  | cons k ks ih =>
    rw [List.foldlM_cons] at ran
    obtain ⟨w₁, first, ran⟩ := bind_ok ran
    rw [List.map_cons, List.nodup_cons] at nodup
    obtain ⟨here, same, others⟩ := unpermuteKey_cases first
    obtain ⟨later, same', others'⟩ := ih nodup.2 ran
    refine ⟨fun j member a found => ?_, fun key => (same' key).trans (same key), fun key absent => ?_⟩
    · rcases List.mem_cons.mp member with rfl | member
      · obtain ⟨a', rows, set⟩ := here a found
        exact ⟨a', rows, (others' _ nodup.1).trans set⟩
      · have different : j.1 ≠ k.1 := by
          intro key
          rw [← key] at nodup
          exact nodup.1 (List.mem_map_of_mem member)
        exact later j member a ((others _ different).trans found)
    · rw [List.map_cons, List.mem_cons, not_or] at absent
      rw [others' key absent.2, others key absent.1]

theorem foldlM_unpermuteKey_ok {headDim : Int} {keys : List (Bytes × Int)} (nodup : (keys.map Prod.fst).Nodup)
    {w : Tensors R} (each : ∀ k ∈ keys, ∀ a, w.lookup k.1 = some a → ∃ a', unpermuteQkRows a k.2 headDim = .ok a') :
    ∃ w', keys.foldlM (unpermuteKey headDim) w = .ok w' := by
  induction keys generalizing w with
  | nil => exact ⟨w, rfl⟩
  | cons k ks ih =>
    rw [List.map_cons, List.nodup_cons] at nodup
    have first : ∃ w₁, unpermuteKey headDim w k = .ok w₁ := by
      unfold unpermuteKey
      split
      · rename_i a found
        obtain ⟨a', rows⟩ := each k List.mem_cons_self a found
        rw [rows]
        exact ⟨_, rfl⟩
      · exact ⟨w, rfl⟩
    obtain ⟨w₁, first⟩ := first
    obtain ⟨-, -, others⟩ := unpermuteKey_cases first
    have rest : ∃ w', ks.foldlM (unpermuteKey headDim) w₁ = .ok w' := by
      apply ih nodup.2
      intro j member a found
      have different : j.1 ≠ k.1 := by
        intro key
        rw [← key] at nodup
        exact nodup.1 (List.mem_map_of_mem member)
      exact each j (List.mem_cons_of_mem _ member) a ((others _ different).symm.trans found)
    obtain ⟨w', rest⟩ := rest
    exact ⟨w', by rw [List.foldlM_cons, first]; exact rest⟩

/-! ### Arrays that a row order applies to -/

/-- An array with a first axis and without an empty one. -/
def Solid (a : MlxArray R) : Prop := a.shape ≠ [] ∧ ∀ d ∈ a.shape, 0 < d

theorem numElements_eq_prod (shape : List Int) : numElements shape = shape.prod := List.prod_eq_foldl.symm

theorem numElements_pos {shape : List Int} (each : ∀ d ∈ shape, 0 < d) : 0 < numElements shape := by
  rw [numElements_eq_prod]
  exact List.prod_pos each

theorem solid_append {dtype : Dtype} {lead : List Int} {d : Int} {cells : List (UInt32 ⊕ R)}
    (leading : ∀ d ∈ lead, 0 < d) (last : 0 < d) : Solid (⟨dtype, lead ++ [d], cells⟩ : MlxArray R) := by
  refine ⟨by simp, fun x member => ?_⟩
  rcases List.mem_append.mp member with member | member
  · exact leading x member
  · rw [List.mem_singleton.mp member]
    exact last

theorem Solid.of_shape {a b : MlxArray R} (solid : Solid a) (same : b.shape = a.shape) : Solid b := by
  unfold Solid
  rw [same]
  exact solid

theorem Solid.takeRows {a : MlxArray R} (solid : Solid a) (index : List Int) : ∃ a', a.takeRows index = .ok a' := by
  obtain ⟨rows, some⟩ := solid
  unfold MlxArray.takeRows
  cases shape : a.shape with
  | nil => exact absurd shape rows
  | cons d tail =>
    rw [shape] at some
    have full : ¬(numElements (d :: tail) = 0 ∧ index ≠ []) := fun empty => (numElements_pos some).ne' empty.1
    simp only [full, if_false]
    exact ⟨_, rfl⟩

theorem Solid.unpermuteQkRows {a : MlxArray R} (solid : Solid a) {nHead headDim : Int} (rows : 0 ≤ nHead * headDim) :
    ∃ a', Mlxforge.unpermuteQkRows a nHead headDim = .ok a' := by
  rw [Mlxforge.unpermuteQkRows, if_neg (Int.not_lt.mpr rows)]
  exact solid.takeRows _

/-! ### A table of tensors that makes a model -/

/-- What is under a canonical name can be reordered, and scales have their weight. -/
structure Loadable (out : Tensors R) : Prop where
  solid : ∀ name a, out.lookup name = some a → (remapGgufKey name).isSome → Solid a
  scales : ∀ name ∈ out, endsWith name (.ofAscii ".scales") → dropSuffix name ++ .ofAscii ".weight" ∈ out

theorem loadable_empty : Loadable (∅ : Tensors R) where
  solid := nofun
  scales := fun _ member => absurd member (AList.notMem_empty _)

theorem Loadable.emplace {out : Tensors R} (loadable : Loadable out) {name : Bytes} {a : MlxArray R}
    (solid : (remapGgufKey name).isSome → Solid a)
    (weight : endsWith name (.ofAscii ".scales") → dropSuffix name ++ .ofAscii ".weight" ∈ out) :
    Loadable (Table.emplace out name a) where
  solid := by
    intro name' a' found canonical
    rcases Table.lookup_emplace found with before | ⟨rfl, rfl⟩
    · exact loadable.solid name' a' before canonical
    · exact solid canonical
  scales := by
    intro name' member ends
    apply Table.mem_emplace.mpr
    right
    rcases Table.mem_emplace.mp member with rfl | member
    · exact weight ends
    · exact loadable.scales name' member ends

/-- A weight with its scales and biases. -/
theorem Loadable.emplace_quant {out : Tensors R} (loadable : Loadable out) {base : Bytes} {weight scales biases : MlxArray R}
    (solidWeight : Solid weight) (solidScales : Solid scales) (solidBiases : Solid biases) :
    Loadable (Table.emplace (Table.emplace (Table.emplace out (base ++ .ofAscii ".weight") weight)
      (base ++ .ofAscii ".scales") scales) (base ++ .ofAscii ".biases") biases) := by
  have notScales : ∀ suffix : Bytes, suffix.length = 7 → suffix ≠ .ofAscii ".scales" →
      ¬endsWith (base ++ suffix) (.ofAscii ".scales") :=
    fun suffix seven other ends => other ((endsWith_append_iff seven).mp ends)
  apply Loadable.emplace
  · apply Loadable.emplace
    · apply loadable.emplace fun _ => solidWeight
      exact fun ends => absurd ends (notScales _ rfl (by decide))
    · exact fun _ => solidScales
    · intro _
      rw [dropSuffix_append rfl]
      exact Table.mem_emplace.mpr (.inl rfl)
  · exact fun _ => solidBiases
  · exact fun ends => absurd ends (notScales _ rfl (by decide))

variable [Floats R]

/-- One turn of the loop of `canonicalTensors`. -/
def addCanonical (w : Tensors R) (e : Sigma fun _ : Bytes => MlxArray R) : Tensors R :=
  match remapGgufKey e.1 with
  | some key => Table.emplace w key (match e.2.dtype with
    | .uint32 => e.2
    | _ => { e.2 with dtype := .float16, cells := e.2.cells.map (Sum.map id Floats.toHalf) })
  | none => w

theorem canonicalTensors_eq (tensors : Tensors R) : canonicalTensors tensors = tensors.entries.foldl addCanonical ∅ := rfl

theorem addCanonical_mem {w : Tensors R} {e : Sigma fun _ : Bytes => MlxArray R} {key : Bytes} :
    key ∈ addCanonical w e ↔ remapGgufKey e.1 = some key ∨ key ∈ w := by
  unfold addCanonical
  split
  · rename_i key' found
    rw [Table.mem_emplace, found, Option.some.injEq, eq_comm]
  · rename_i none
    rw [none]
    simp

theorem addCanonical_lookup {w : Tensors R} {e : Sigma fun _ : Bytes => MlxArray R} {key : Bytes} {a : MlxArray R}
    (found : (addCanonical w e).lookup key = some a) :
    w.lookup key = some a ∨ remapGgufKey e.1 = some key ∧ a.shape = e.2.shape := by
  unfold addCanonical at found
  split at found
  · rename_i key' same
    rcases Table.lookup_emplace found with before | ⟨rfl, rfl⟩
    · exact .inl before
    · right
      refine ⟨same, ?_⟩
      split <;> rfl
  · exact .inl found

theorem canonicalTensors_mem {tensors : Tensors R} {key : Bytes} :
    key ∈ canonicalTensors tensors ↔ ∃ name ∈ tensors, remapGgufKey name = some key := by
  have loop : ∀ (es : List (Sigma fun _ : Bytes => MlxArray R)) (w : Tensors R),
      key ∈ es.foldl addCanonical w ↔ key ∈ w ∨ ∃ e ∈ es, remapGgufKey e.1 = some key := by
    intro es
    induction es with
    | nil => simp
    | cons e es ih =>
      intro w
      rw [List.foldl_cons, ih, addCanonical_mem]
      simp only [List.mem_cons, exists_eq_or_imp]
      tauto
  rw [canonicalTensors_eq, loop]
  constructor
  · rintro (member | ⟨⟨name, a⟩, member, same⟩)
    · exact absurd member (AList.notMem_empty key)
    · exact ⟨name, AList.lookup_isSome.mp (by rw [Table.mem_iff.mp member]; rfl), same⟩
  · rintro ⟨name, member, same⟩
    obtain ⟨a, found⟩ := Option.isSome_iff_exists.mp (AList.lookup_isSome.mpr member)
    exact .inr ⟨⟨name, a⟩, Table.mem_iff.mpr found, same⟩

theorem canonicalTensors_lookup {tensors : Tensors R} {key : Bytes} {a : MlxArray R}
    (found : (canonicalTensors tensors).lookup key = some a) :
    ∃ name b, tensors.lookup name = some b ∧ remapGgufKey name = some key ∧ a.shape = b.shape := by
  have loop : ∀ (es : List (Sigma fun _ : Bytes => MlxArray R)) (w : Tensors R),
      (es.foldl addCanonical w).lookup key = some a →
        w.lookup key = some a ∨ ∃ e ∈ es, remapGgufKey e.1 = some key ∧ a.shape = e.2.shape := by
    intro es
    induction es with
    | nil => exact fun w found => .inl found
    | cons e es ih =>
      intro w found
      rcases ih _ found with before | ⟨e', member, same⟩
      · rcases addCanonical_lookup before with before | here
        · exact .inl before
        · exact .inr ⟨e, List.mem_cons_self, here⟩
      · exact .inr ⟨e', List.mem_cons_of_mem _ member, same⟩
  rw [canonicalTensors_eq] at found
  rcases loop _ _ found with before | ⟨⟨name, b⟩, member, same, shape⟩
  · cases before
  · exact ⟨name, b, Table.mem_iff.mp member, same, shape⟩

theorem Loadable.canonical_solid {tensors : Tensors R} (loadable : Loadable tensors) {key : Bytes} {a : MlxArray R}
    (found : (canonicalTensors tensors).lookup key = some a) : Solid a := by
  obtain ⟨name, b, here, same, shape⟩ := canonicalTensors_lookup found
  have solid := loadable.solid name b here (by rw [same]; rfl)
  unfold Solid
  rw [shape]
  exact solid

theorem Loadable.canonical_scales {tensors : Tensors R} (loadable : Loadable tensors) {key : Bytes}
    (member : key ∈ canonicalTensors tensors) (ends : endsWith key (.ofAscii ".scales")) :
    dropSuffix key ++ .ofAscii ".weight" ∈ canonicalTensors tensors := by
  obtain ⟨name, here, same⟩ := canonicalTensors_mem.mp member
  obtain ⟨base, mapped, rfl, base', rfl⟩ := remapGgufKey_scales same ends
  have weight := loadable.scales _ here (List.suffix_append _ _)
  rw [dropSuffix_append rfl] at weight ⊢
  apply canonicalTensors_mem.mpr
  refine ⟨_, weight, ?_⟩
  rw [remapGgufKey_append (by simp), base', Option.map_some]

omit [Floats R] in
theorem indexGgufQuant_ok {w : Tensors R}
    (scales : ∀ key ∈ w, endsWith key (.ofAscii ".scales") → dropSuffix key ++ .ofAscii ".weight" ∈ w) :
    ∃ quant, indexGgufQuant w = .ok quant := by
  suffices each : ∃ quant, indexGgufQuant w = .ok quant ∧ List.Forall₂ (fun _ _ => True)
      (w.entries.filter fun e => endsWith e.1 (.ofAscii ".scales")) quant by
    obtain ⟨quant, ran, _⟩ := each
    exact ⟨quant, ran⟩
  apply mapM_forall₂
  intro e member
  obtain ⟨here, ends⟩ := List.mem_filter.mp member
  have present : e.1 ∈ w := AList.lookup_isSome.mp (by rw [Table.mem_iff.mp here]; rfl)
  obtain ⟨weight, found⟩ := Option.isSome_iff_exists.mp
    (AList.lookup_isSome.mpr (scales e.1 present (of_decide_eq_true ends)))
  simp only [found]
  exact ⟨_, rfl, trivial⟩

omit [Floats R] in
theorem qkKeys_heads {c : GgufConfig R} {i : Nat} {k : Bytes × Int} (member : k ∈ qkKeys c i) :
    k.2 = c.nHeads ∨ k.2 = c.nKvHeads := by
  simp only [qkKeys, List.flatMap_cons, List.flatMap_nil, List.append_nil, List.mem_append, List.mem_map] at member
  rcases member with ⟨_, _, rfl⟩ | ⟨_, _, rfl⟩
  · exact .inl rfl
  · exact .inr rfl

theorem buildModel_ok {head : GgufHead R} {tensors : Tensors R} (loadable : Loadable tensors)
    (q : 0 ≤ head.config.nHeads * head.config.headDim) (k : 0 ≤ head.config.nKvHeads * head.config.headDim) :
    ∃ g, buildModel head tensors = .ok g := by
  let config : GgufConfig R := { head.config with
    ropeFreqFactors := (tensors.lookup (.ofAscii "rope_freqs.weight")).map fun rf => rf.cells.filterMap Sum.getRight?
    tieWordEmbeddings := decide (Bytes.ofAscii "lm_head.weight" ∉ canonicalTensors tensors) }
  have nodup := qkKeys_nodup config config.nLayers.toNat
  have unpermuted : ∃ w, unpermuteQk (canonicalTensors tensors) config = .ok w := by
    apply foldlM_unpermuteKey_ok nodup
    intro key member a found
    obtain ⟨i, _, member⟩ := List.mem_flatMap.mp member
    apply (loadable.canonical_solid found).unpermuteQkRows
    rcases qkKeys_heads member with heads | heads
    · rw [heads]
      exact q
    · rw [heads]
      exact k
  obtain ⟨w, unpermuted⟩ := unpermuted
  obtain ⟨-, same, -⟩ := foldlM_unpermuteKey nodup unpermuted
  have scales : ∀ key ∈ w, endsWith key (.ofAscii ".scales") → dropSuffix key ++ .ofAscii ".weight" ∈ w := by
    intro key member ends
    apply (same _).mpr
    exact loadable.canonical_scales ((same _).mp member) ends
  obtain ⟨quant, indexed⟩ := indexGgufQuant_ok scales
  refine ⟨⟨{ head with config }, w, quant⟩, ?_⟩
  change (unpermuteQk (canonicalTensors tensors) config >>= fun weights => _) = _
  rw [unpermuted, ok_bind, indexed, ok_bind]
  rfl

end Mlxforge
