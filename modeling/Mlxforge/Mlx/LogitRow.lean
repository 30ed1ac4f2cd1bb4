import Mathlib.Algebra.BigOperators.Field
import Mathlib.Analysis.SpecialFunctions.Exp
import Mlxforge.Lib.Selection

/-!
Rows of logits in exact arithmetic, and the array operations that the sampler applies to them.
-/

namespace Mlxforge

/-- A real number, or -inf. -/
abbrev Logit := WithBot ℝ

namespace Logit

noncomputable def exp : Logit → ℝ := WithBot.recBotCoe 0 Real.exp

noncomputable def negative : Logit → WithTop ℝ := WithBot.recBotCoe ⊤ fun x => ((-x : ℝ) : WithTop ℝ)

noncomputable def divide (x : Logit) (t : ℝ) : Logit := x.map (· / t)

theorem exp_nonneg (x : Logit) : 0 ≤ x.exp := by
  induction x using WithBot.recBotCoe with
  | bot => exact le_rfl
  | coe x => exact (Real.exp_pos x).le

theorem exp_pos {x : Logit} (finite : x ≠ ⊥) : 0 < x.exp := by
  induction x using WithBot.recBotCoe with
  | bot => exact absurd rfl finite
  | coe x => exact Real.exp_pos x

theorem exp_mono {x y : Logit} (le : x ≤ y) : x.exp ≤ y.exp := by
  induction x using WithBot.recBotCoe with
  | bot => exact y.exp_nonneg
  | coe x =>
    induction y using WithBot.recBotCoe with
    | bot => exact absurd le (WithBot.not_coe_le_bot x)
    | coe y => exact Real.exp_le_exp.mpr (WithBot.coe_le_coe.mp le)

theorem negative_le_negative {x y : Logit} : x.negative ≤ y.negative ↔ y ≤ x := by
  induction x using WithBot.recBotCoe with
  | bot =>
    induction y using WithBot.recBotCoe with
    | bot => exact ⟨fun _ => le_rfl, fun _ => le_rfl⟩
    | coe y => exact ⟨fun le => absurd le (WithTop.not_top_le_coe _), fun le => absurd le (WithBot.not_coe_le_bot y)⟩
  | coe x =>
    induction y using WithBot.recBotCoe with
    | bot => exact ⟨fun _ => bot_le, fun _ => le_top⟩
    | coe y =>
      have finite : ((-x : ℝ) : WithTop ℝ) ≤ ((-y : ℝ) : WithTop ℝ) ↔ (y : Logit) ≤ x := by
        rw [WithTop.coe_le_coe, WithBot.coe_le_coe, neg_le_neg_iff]
      exact finite

theorem divide_bot_iff {x : Logit} {t : ℝ} : x.divide t = ⊥ ↔ x = ⊥ := WithBot.map_eq_bot_iff

theorem divide_le_divide {x y : Logit} {t : ℝ} (positive : 0 < t) : x.divide t ≤ y.divide t ↔ x ≤ y :=
  WithBot.map_le_iff _ (div_le_div_iff_of_pos_right positive)

end Logit

/-! ### Array operations -/

variable {n : Nat}

noncomputable def softmax (row : Fin n → Logit) (i : Fin n) : ℝ := (row i).exp / ∑ j, (row j).exp

/-- The inclusive sum. -/
noncomputable def cumsum (probs : Fin n → ℝ) (j : Fin n) : ℝ := ∑ i ∈ Finset.Iic j, probs i

/-- The `k` largest values. -/
noncomputable def topk (row : Fin n → Logit) (k : Nat) : List Logit := (List.ofFn (row ∘ Tuple.sort row)).drop (n - k)

/-- The indices that put a row in ascending order. Where values are equal the order is left open. -/
structure Argsort (n : Nat) (α : Type) [LinearOrder α] where
  order : (Fin n → α) → Equiv.Perm (Fin n)
  ascending : ∀ row, Monotone (row ∘ order row)

/-- Equal values keep their order. -/
def Argsort.stable (n : Nat) (α : Type) [LinearOrder α] : Argsort n α := ⟨Tuple.sort, Tuple.monotone_sort⟩

def takeAlongAxis {α : Type} (row : Fin n → α) (idx : Fin n → Fin n) : Fin n → α := row ∘ idx

def putAlongAxis {α : Type} (base : Fin n → α) (idx : Fin n → Fin n) (values : Fin n → α) : Fin n → α :=
  (List.finRange n).foldl (fun out j => Function.update out (idx j) (values j)) base

theorem putAlongAxis_apply {α : Type} {idx : Fin n → Fin n} (injective : Function.Injective idx) (base values : Fin n → α)
    (j : Fin n) : putAlongAxis base idx values (idx j) = values j := by
  have put : ∀ js : List (Fin n), j ∈ js →
      js.foldl (fun out j => Function.update out (idx j) (values j)) base (idx j) = values j := by
    intro js
    induction js using List.reverseRecOn with
    | nil => exact fun member => absurd member List.not_mem_nil
    | append_singleton js j' ih =>
      intro member
      rw [List.foldl_append, List.foldl_cons, List.foldl_nil]
      by_cases same : j = j'
      · rw [← same, Function.update_self]
      · have earlier : j ∈ js := by simpa [same] using member
        rw [Function.update_of_ne (injective.ne same), ih earlier]
  exact put _ (List.mem_finRange j)

theorem cumsum_sub (probs : Fin n → ℝ) (j : Fin n) : cumsum probs j - probs j = Selection.prefixMass probs j := by
  have upTo : cumsum probs j = Selection.prefixMass probs (j + 1) := by
    refine Finset.sum_congr ?_ fun _ _ => rfl
    ext i
    simp
  rw [upTo, Selection.prefixMass_succ, add_sub_cancel_right]

/-- The least of the `k` largest values is the `k`-th largest. -/
theorem min_topk (row : Fin n → Logit) {k : Nat} (positive : 0 < k) (fits : k ≤ n) :
    ∃ v, (topk row k).min? = some v ∧ Selection.KthLargest row k v := by
  have inside : n - k < n := by omega
  refine ⟨(row ∘ Tuple.sort row) ⟨n - k, inside⟩, ?_, ?_⟩
  · rw [List.min?_eq_some_iff, topk]
    constructor
    · refine List.mem_drop_iff_getElem.mpr ⟨0, by simpa using inside, ?_⟩
      simp
    · intro b member
      obtain ⟨i, inRow, rfl⟩ := List.mem_drop_iff_getElem.mp member
      rw [List.getElem_ofFn]
      refine Tuple.monotone_sort row ?_
      exact Nat.le_add_right _ _
  · exact Selection.kthLargest_sorted (Tuple.monotone_sort row) ⟨n - k, inside⟩ rfl fits

section softmax
variable {row : Fin n → Logit}

theorem softmax_nonneg (row : Fin n → Logit) (i : Fin n) : 0 ≤ softmax row i :=
  div_nonneg (row i).exp_nonneg (Finset.sum_nonneg fun j _ => (row j).exp_nonneg)

theorem sum_softmax (finite : ∃ i, row i ≠ ⊥) : ∑ i, softmax row i = 1 := by
  obtain ⟨i, finite⟩ := finite
  have total : 0 < ∑ j, (row j).exp :=
    Finset.sum_pos' (fun j _ => (row j).exp_nonneg) ⟨i, Finset.mem_univ i, Logit.exp_pos finite⟩
  simp only [softmax]
  rw [← Finset.sum_div, div_self total.ne']

theorem softmax_mono {i j : Fin n} (le : row i ≤ row j) : softmax row i ≤ softmax row j :=
  div_le_div_of_nonneg_right (Logit.exp_mono le) (Finset.sum_nonneg fun j _ => (row j).exp_nonneg)

theorem softmax_eq_zero {i : Fin n} (finite : ∃ i, row i ≠ ⊥) : softmax row i = 0 ↔ row i = ⊥ := by
  obtain ⟨j, finite⟩ := finite
  have total : 0 < ∑ j, (row j).exp :=
    Finset.sum_pos' (fun j _ => (row j).exp_nonneg) ⟨j, Finset.mem_univ j, Logit.exp_pos finite⟩
  constructor
  · intro zero
    by_contra finite
    exact absurd zero (div_pos (Logit.exp_pos finite) total).ne'
  · intro masked
    rw [softmax, masked]
    exact zero_div _

theorem softmax_comp (row : Fin n → Logit) (order : Equiv.Perm (Fin n)) : softmax (row ∘ order) = softmax row ∘ order := by
  funext j
  simp only [softmax, Function.comp_apply]
  rw [Equiv.sum_comp order fun i => (row i).exp]

end softmax

end Mlxforge
