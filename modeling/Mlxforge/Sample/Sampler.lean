import Mlxforge.Mlx.LogitRow
import Mlxforge.Scheduler.Request

/-!
# The sampling filters

Top-k, top-p and min-p on one row of logits, and the row that a token is drawn from. Each stage thins the row it is
given: entries are kept or masked, and a greatest one is kept.
-/

namespace Mlxforge

open Selection

variable {n : Nat}

namespace Sampler

noncomputable def applyTopK (logits : Fin n → Logit) (k : Nat) : Fin n → Logit :=
  let kth := topk logits k
  -- `k` is positive and at most the row's length, so there is a least value
  let threshold := kth.min?.getD ⊥
  fun i => if logits i < threshold then ⊥ else logits i

noncomputable def applyTopP (argsort : Argsort n (WithTop ℝ)) (logits : Fin n → Logit) (p : ℝ) : Fin n → Logit :=
  let order := argsort.order fun i => (logits i).negative
  let sortedLogits := takeAlongAxis logits order
  let probs := softmax sortedLogits
  let cum := cumsum probs
  let prior := fun j => cum j - probs j
  let sortedFiltered := fun j => if prior j < p then sortedLogits j else ⊥
  putAlongAxis (fun _ => ⊥) order sortedFiltered

noncomputable def applyMinP (logits : Fin n → Logit) (minP : ℝ) : Fin n → Logit :=
  let probs := softmax logits
  let peak := (List.ofFn probs).max?.getD 0
  let threshold := peak * minP
  fun i => if probs i < threshold then ⊥ else logits i

/-! The stages of `sample`, after the penalties. -/

noncomputable def scaled (params : SamplingParams) (adj : Fin n → Logit) : Fin n → Logit :=
  fun i => (adj i).divide params.temperature

noncomputable def afterTopK (params : SamplingParams) (scaled : Fin n → Logit) : Fin n → Logit :=
  if 0 < params.topK then applyTopK scaled (min params.topK n).toNat else scaled

noncomputable def afterTopP (argsort : Argsort n (WithTop ℝ)) (params : SamplingParams) (scaled : Fin n → Logit) :
    Fin n → Logit :=
  if params.topP < 1 then applyTopP argsort scaled params.topP else scaled

noncomputable def afterMinP (params : SamplingParams) (scaled : Fin n → Logit) : Fin n → Logit :=
  if 0 < params.minP then applyMinP scaled params.minP else scaled

/-- The row that `categorical` draws from where the temperature is positive. -/
noncomputable def filtered (argsort : Argsort n (WithTop ℝ)) (params : SamplingParams) (adj : Fin n → Logit) :
    Fin n → Logit :=
  afterMinP params (afterTopP argsort params (afterTopK params (scaled params adj)))

end Sampler

/-! ### What each filter keeps -/

/-- The entries at or above the `k`-th largest, or all where `k` is not positive. -/
structure KeepsTopK (k : Int) (row out : Fin n → Logit) : Prop where
  off : k ≤ 0 → out = row
  on : 0 < k → ∃ v, KthLargest row (min k n).toNat v ∧ ∀ i, out i = if v ≤ row i then row i else ⊥

/-- The shortest prefix of the descending order `order` whose probability reaches `p`. -/
structure KeepsTopP (order : Equiv.Perm (Fin n)) (p : ℝ) (row out : Fin n → Logit) : Prop where
  descending : Antitone (row ∘ order)
  kept : ∃ m ≤ n, Shortest (softmax row ∘ order) p m ∧ ∀ j, out (order j) = if j < m then row (order j) else ⊥

/-- The entries with at least `minP` times the greatest probability. -/
def KeepsMinP (minP : ℝ) (row out : Fin n → Logit) : Prop :=
  ∃ peak, IsGreatest (Set.range (softmax row)) peak ∧ ∀ i, out i = if minP * peak ≤ softmax row i then row i else ⊥

namespace Sampler

variable {params : SamplingParams} {row : Fin n → Logit}

theorem afterTopK_keeps (params : SamplingParams) (finite : ∃ i, row i ≠ ⊥) :
    KeepsTopK params.topK row (afterTopK params row) := by
  constructor
  · intro off
    rw [afterTopK, if_neg (not_lt.mpr off)]
  · intro on
    obtain ⟨some, _⟩ := finite
    have rowLength := some.pos
    obtain ⟨v, least, kth⟩ := min_topk row (k := (min params.topK n).toNat) (by omega) (by omega)
    refine ⟨v, kth, fun i => ?_⟩
    rw [afterTopK, if_pos on, applyTopK, least, Option.getD_some]
    beta_reduce
    by_cases below : row i < v
    · rw [if_pos below, if_neg (not_le.mpr below)]
    · rw [if_neg below, if_pos (not_lt.mp below)]

theorem descending_order (argsort : Argsort n (WithTop ℝ)) (row : Fin n → Logit) :
    Antitone (row ∘ argsort.order fun i => (row i).negative) := by
  intro i j le
  exact Logit.negative_le_negative.mp (argsort.ascending (fun i => (row i).negative) le)

theorem applyTopP_keeps (argsort : Argsort n (WithTop ℝ)) {p : ℝ} (finite : ∃ i, row i ≠ ⊥) (most : p ≤ 1) :
    KeepsTopP (argsort.order fun i => (row i).negative) p row (applyTopP argsort row p) := by
  have total : ∑ j, (softmax row ∘ argsort.order fun i => (row i).negative) j = 1 := by
    rw [← sum_softmax finite]
    exact Equiv.sum_comp _ (softmax row)
  obtain ⟨m, fits, shortest⟩ := exists_shortest (most.trans total.ge)
  refine ⟨descending_order argsort row, m, fits, shortest, fun j => ?_⟩
  rw [applyTopP, putAlongAxis_apply (Equiv.injective _), takeAlongAxis]
  beta_reduce
  rw [cumsum_sub, softmax_comp]
  exact if_congr (shortest.prior_lt_iff (fun i => softmax_nonneg row _) j) rfl rfl

theorem afterTopP_keeps (argsort : Argsort n (WithTop ℝ)) (finite : ∃ i, row i ≠ ⊥) (most : params.topP ≤ 1) :
    KeepsTopP (argsort.order fun i => (row i).negative) params.topP row (afterTopP argsort params row) := by
  rw [afterTopP]
  split
  next less => exact applyTopP_keeps argsort finite (by exact_mod_cast less.le)
  next all =>
    -- the prefix that reaches 1 leaves only entries of probability 0, which are masked
    have one : params.topP = 1 := le_antisymm most (not_lt.mp all)
    have total : ∑ j, (softmax row ∘ argsort.order fun i => (row i).negative) j = 1 := by
      rw [← sum_softmax finite]
      exact Equiv.sum_comp _ (softmax row)
    have whole : (params.topP : ℝ) = ∑ j, (softmax row ∘ argsort.order fun i => (row i).negative) j := by
      rw [total, one, Rat.cast_one]
    obtain ⟨m, fits, shortest⟩ := exists_shortest whole.le
    refine ⟨descending_order argsort row, m, fits, shortest, fun j => ?_⟩
    by_cases inside : j < m
    · rw [if_pos inside]
    · have zero := shortest.zero_outside whole (fun i => softmax_nonneg row _) j (not_lt.mp inside)
      rw [if_neg inside]
      exact (softmax_eq_zero finite).mp zero

theorem afterMinP_keeps (params : SamplingParams) (finite : ∃ i, row i ≠ ⊥) :
    KeepsMinP params.minP row (afterMinP params row) := by
  have : Nonempty (Fin n) := ⟨finite.choose⟩
  obtain ⟨top, greatest⟩ := Finite.exists_max (softmax row)
  refine ⟨softmax row top, ⟨⟨top, rfl⟩, ?_⟩, fun i => ?_⟩
  · intro prob member
    obtain ⟨i, rfl⟩ := member
    exact greatest i
  · have peak : (List.ofFn (softmax row)).max? = some (softmax row top) := by
      rw [List.max?_eq_some_iff]
      refine ⟨List.mem_ofFn.mpr ⟨top, rfl⟩, fun prob member => ?_⟩
      obtain ⟨i, rfl⟩ := List.mem_ofFn.mp member
      exact greatest i
    rw [afterMinP]
    split
    next on =>
      rw [applyMinP, peak, Option.getD_some, mul_comm]
      beta_reduce
      by_cases below : softmax row i < params.minP * softmax row top
      · rw [if_pos below, if_neg (not_le.mpr below)]
      · rw [if_neg below, if_pos (not_lt.mp below)]
    next off =>
      have free : (params.minP : ℝ) ≤ 0 := by exact_mod_cast not_lt.mp off
      rw [if_pos ((mul_nonpos_of_nonpos_of_nonneg free (softmax_nonneg row top)).trans (softmax_nonneg row i))]

end Sampler

/-! ### A greatest logit survives -/

section thins
variable {row out : Fin n → Logit}

theorem kept_or_masked {p : Prop} [Decidable p] {x y : Logit} (same : x = if p then y else ⊥) : x = ⊥ ∨ x = y := by
  rw [same]
  split
  · exact .inr rfl
  · exact .inl rfl

theorem KeepsTopK.thins {k : Int} (keeps : KeepsTopK k row out) (finite : ∃ i, row i ≠ ⊥) : Thins row out := by
  have : Nonempty (Fin n) := ⟨finite.choose⟩
  rcases le_or_gt k 0 with off | on
  · rw [keeps.off off]
    exact Thins.refl row
  · obtain ⟨v, kth, kept⟩ := keeps.on on
    obtain ⟨top, greatest⟩ := Finite.exists_max row
    obtain ⟨i, at?⟩ := kth.attained
    refine ⟨fun i => kept_or_masked (kept i), top, greatest, ?_⟩
    rw [kept, if_pos (at? ▸ greatest i)]

theorem KeepsTopP.thins {order : Equiv.Perm (Fin n)} {p : ℝ} (keeps : KeepsTopP order p row out) (positive : 0 < p)
    (finite : ∃ i, row i ≠ ⊥) : Thins row out := by
  obtain ⟨m, _, shortest, kept⟩ := keeps.kept
  obtain ⟨some, _⟩ := finite
  refine ⟨fun i => ?_, order ⟨0, some.pos⟩, fun j => ?_, ?_⟩
  · have same := kept (order.symm i)
    rw [order.apply_symm_apply] at same
    exact kept_or_masked same
  · have le : (⟨0, some.pos⟩ : Fin n) ≤ order.symm j := Nat.zero_le _
    have first := keeps.descending le
    rwa [Function.comp_apply, Function.comp_apply, order.apply_symm_apply] at first
  · rw [kept, if_pos (shortest.pos positive)]

theorem KeepsMinP.thins {minP : ℝ} (keeps : KeepsMinP minP row out) (most : minP ≤ 1) (finite : ∃ i, row i ≠ ⊥) :
    Thins row out := by
  have : Nonempty (Fin n) := ⟨finite.choose⟩
  obtain ⟨peak, ⟨⟨i, reached⟩, _⟩, kept⟩ := keeps
  obtain ⟨top, greatest⟩ := Finite.exists_max row
  refine ⟨fun i => kept_or_masked (kept i), top, greatest, ?_⟩
  have nonneg : 0 ≤ peak := reached ▸ softmax_nonneg row i
  rw [kept, if_pos]
  calc minP * peak ≤ peak := mul_le_of_le_one_left nonneg most
    _ = softmax row i := reached.symm
    _ ≤ softmax row top := softmax_mono (greatest i)

theorem finite_of_thins (thins : Thins row out) (finite : ∃ i, row i ≠ ⊥) : ∃ i, out i ≠ ⊥ := by
  obtain ⟨top, greatest, kept⟩ := thins.greatest
  obtain ⟨i, finite⟩ := finite
  refine ⟨top, fun masked => finite ?_⟩
  rw [← le_bot_iff, ← masked, kept]
  exact greatest i

end thins

namespace Sampler

/-- The row that is drawn from has a greatest logit, nothing that was masked, and what each filter in turn keeps of the
row before it. -/
theorem filtered_support (argsort : Argsort n (WithTop ℝ)) (params : SamplingParams) (row : Fin n → Logit)
    (finite : ∃ i, row i ≠ ⊥) (hot : 0 < params.temperature) (positive : 0 < params.topP) (mostP : params.topP ≤ 1)
    (most : params.minP ≤ 1) :
    let logits := scaled params row
    let byRank := afterTopK params logits
    let byMass := afterTopP argsort params byRank
    let out := filtered argsort params row
    (∃ i, (∀ j, row j ≤ row i) ∧ out i ≠ ⊥) ∧ (∀ i, row i = ⊥ → out i = ⊥) ∧
      KeepsTopK params.topK logits byRank ∧
      KeepsTopP (argsort.order fun i => (byRank i).negative) params.topP byRank byMass ∧
      KeepsMinP params.minP byMass out ∧
      ∀ i, out i ≠ ⊥ → out i = (row i).divide params.temperature := by
  intro logits byRank byMass out
  have finiteScaled : ∃ i, logits i ≠ ⊥ := by
    obtain ⟨i, finite⟩ := finite
    exact ⟨i, fun masked => finite (Logit.divide_bot_iff.mp masked)⟩
  have rank : KeepsTopK params.topK logits byRank := afterTopK_keeps params finiteScaled
  have thinsRank := rank.thins finiteScaled
  have finiteRank := finite_of_thins thinsRank finiteScaled
  have mass : KeepsTopP _ params.topP byRank byMass := afterTopP_keeps argsort finiteRank mostP
  have thinsMass := mass.thins (by exact_mod_cast positive) finiteRank
  have finiteMass := finite_of_thins thinsMass finiteRank
  have peak : KeepsMinP params.minP byMass out := afterMinP_keeps params finiteMass
  have thinsPeak := peak.thins (by exact_mod_cast most) finiteMass
  have thins : Thins logits out := (thinsRank.trans thinsMass).trans thinsPeak
  refine ⟨?_, ?_, rank, mass, peak, ?_⟩
  · obtain ⟨top, greatest, kept⟩ := thins.greatest
    obtain ⟨i, some⟩ := finiteScaled
    refine ⟨top, fun j => (Logit.divide_le_divide (by exact_mod_cast hot)).mp (greatest j), fun masked => some ?_⟩
    rw [← le_bot_iff, ← masked, kept]
    exact greatest i
  · intro i masked
    rcases thins.kept i with least | same
    · exact least
    · exact same.trans (Logit.divide_bot_iff.mpr masked)
  · intro i survives
    exact (thins.kept i).resolve_left survives

/-- Two tokens share the greatest logit, and a third is masked. -/
theorem filtered_support_tied :
    ∃ i : Fin 3, (∀ j, (![1, ⊥, 1] : Fin 3 → Logit) j ≤ (![1, ⊥, 1] : Fin 3 → Logit) i) ∧
      filtered (Argsort.stable 3 (WithTop ℝ)) { temperature := 1 / 2, topK := 1, topP := 1 / 10, minP := 1 }
        ![1, ⊥, 1] i ≠ ⊥ :=
  (filtered_support (Argsort.stable 3 (WithTop ℝ)) { temperature := 1 / 2, topK := 1, topP := 1 / 10, minP := 1 }
    ![1, ⊥, 1] ⟨0, WithBot.coe_ne_bot⟩ (by norm_num) (by norm_num) (by norm_num) (by norm_num)).1

end Sampler

end Mlxforge
