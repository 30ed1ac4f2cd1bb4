import Mlxforge.Runtime.SingleStream
import Mlxforge.Sample.Sampler

/-!
# Sampling a token

The penalties on one row of logits, the draw, and the log-probs that are reported of it. What a history does to a token
depends on how often the token is in it, and the reported log-probs are those of the penalized row.
-/

namespace Mlxforge

open Selection

variable {n : Nat} {Key : Type}

namespace Logit

noncomputable def multiply (x : Logit) (t : ℝ) : Logit := x.map (· * t)

noncomputable def subtract (x : Logit) (t : ℝ) : Logit := x.map (· - t)

/-- The logarithm of a probability. -/
noncomputable def log (p : ℝ) : Logit := if p = 0 then ⊥ else (Real.log p : ℝ)

end Logit

/-- The first place of a greatest entry, or another one. -/
structure Argmax (n : Nat) where
  index : (Fin n → Logit) → Fin n
  greatest : ∀ (row : Fin n → Logit) j, row j ≤ row (index row)

/-- A draw from the softmax of a row: what is masked is not drawn while something is not. -/
structure Categorical (n : Nat) (Key : Type) where
  draw : (Fin n → Logit) → Key → Fin n
  unmasked : ∀ {row : Fin n → Logit}, (∃ i, row i ≠ ⊥) → ∀ key, row (draw row key) ≠ ⊥

structure SampleResult (n : Nat) where
  token : Fin n
  logprob : Logit
  /-- The alternatives that were asked for, most likely first. -/
  top : List (Fin n × Logit)

namespace Sampler

noncomputable def logProbs (logits : Fin n → Logit) : Fin n → Logit := fun i => Logit.log (softmax logits i)

noncomputable def topKLogprobs (argsort : Argsort n (WithTop ℝ)) (logp : Fin n → Logit) (k : Nat) : List (Fin n × Logit) :=
  let order := argsort.order fun i => (logp i).negative
  ((List.finRange n).take k).map fun j => (order j, logp (order j))

noncomputable def attachLogprobs (argsort : Argsort n (WithTop ℝ)) (token : Fin n) (dist : Fin n → Logit)
    (params : SamplingParams) : SampleResult n :=
  let k := min params.topLogprobs n
  if k ≤ 0 then ⟨token, dist token, []⟩ else ⟨token, dist token, topKLogprobs argsort dist k.toNat⟩

/-- The logit of each seen token is scaled and written back, once for every time it was seen. -/
noncomputable def applyRepetitionPenalty (logits : Fin n → Logit) (history : List (Fin n)) (penalty : ℝ) : Fin n → Logit :=
  let seen := history.map logits
  let scaled := seen.map fun x => if 0 < x then x.divide penalty else x.multiply penalty
  (history.zip scaled).foldl (fun out p => Function.update out p.1 p.2) logits

noncomputable def applyFrequencyPresence (logits : Fin n → Logit) (history : List (Fin n)) (frequency presence : ℝ) :
    Fin n → Logit :=
  let counts : Fin n → ℝ := history.foldl (fun counts i => Function.update counts i (counts i + 1)) fun _ => 0
  let seen : Fin n → ℝ := fun i => if 0 < counts i then 1 else 0
  let adjusted := fun i => (logits i).subtract (counts i * frequency)
  fun i => (adjusted i).subtract (seen i * presence)

noncomputable def penalize (logits : Fin n → Logit) (params : SamplingParams) (history : List (Fin n)) : Fin n → Logit :=
  let out := if params.repetitionPenalty ≠ 1 then applyRepetitionPenalty logits history params.repetitionPenalty else logits
  if params.frequencyPenalty ≠ 0 ∨ params.presencePenalty ≠ 0 then
    applyFrequencyPresence out history params.frequencyPenalty params.presencePenalty
  else out

section
variable (argsort : Argsort n (WithTop ℝ)) (argmax : Argmax n) (categorical : Categorical n Key)

noncomputable def sample (logits : Fin n → Logit) (params : SamplingParams) (key : Key) (history : List (Fin n)) : SampleResult n :=
  let adj := if 0 < history.length then penalize logits params history else logits
  let finish := fun token =>
    if params.topLogprobs < 0 then ⟨token, logProbs adj token, []⟩ else attachLogprobs argsort token (logProbs adj) params
  if params.temperature ≤ 0 then finish (argmax.index adj)
  else finish (categorical.draw (filtered argsort params adj) key)

end

/-! ### The penalized row -/

/-- The penalties of one token: it is scaled once, and lowered by its count and once for being there. -/
noncomputable def penalized (params : SamplingParams) (history : List (Fin n)) (logits : Fin n → Logit) (i : Fin n) : Logit :=
  if i ∈ history then
    ((if 0 < logits i then (logits i).divide params.repetitionPenalty else (logits i).multiply params.repetitionPenalty).subtract
      (history.count i * params.frequencyPenalty)).subtract params.presencePenalty
  else logits i

theorem applyRepetitionPenalty_apply (logits : Fin n → Logit) (history : List (Fin n)) (penalty : ℝ) (i : Fin n) :
    applyRepetitionPenalty logits history penalty i =
      if i ∈ history then if 0 < logits i then (logits i).divide penalty else (logits i).multiply penalty else logits i := by
  have written : ∀ (f base : Fin n → Logit) (ids : List (Fin n)),
      (ids.zip (ids.map f)).foldl (fun out p => Function.update out p.1 p.2) base i = if i ∈ ids then f i else base i := by
    intro f base ids
    induction ids using List.reverseRecOn with
    | nil => rfl
    | append_singleton ids j ih =>
      rw [List.map_append, List.zip_append (List.length_map _).symm, List.foldl_append, List.map_singleton, List.zip_cons_cons,
        List.zip_nil_left, List.foldl_cons, List.foldl_nil]
      by_cases same : i = j
      · subst same
        rw [Function.update_self, if_pos (by simp)]
      · rw [Function.update_of_ne same, ih]
        simp [same]
  rw [applyRepetitionPenalty, List.map_map]
  exact written (fun j => if 0 < logits j then (logits j).divide penalty else (logits j).multiply penalty) logits history

theorem foldl_counts (history : List (Fin n)) (i : Fin n) :
    history.foldl (fun counts i => Function.update counts i (counts i + 1)) (fun _ => (0 : ℝ)) i = history.count i := by
  induction history using List.reverseRecOn with
  | nil => simp
  | append_singleton history j ih =>
    rw [List.foldl_append, List.foldl_cons, List.foldl_nil, List.count_append]
    by_cases same : i = j
    · subst same
      rw [Function.update_self, ih]
      simp
    · rw [Function.update_of_ne same, ih]
      simp [Ne.symm same]

theorem Logit.subtract_zero (x : Logit) : x.subtract 0 = x := by
  simp only [Logit.subtract, sub_zero]
  exact congrFun WithBot.map_id x

theorem applyFrequencyPresence_apply (logits : Fin n → Logit) (history : List (Fin n)) (frequency presence : ℝ) (i : Fin n) :
    applyFrequencyPresence logits history frequency presence i =
      if i ∈ history then ((logits i).subtract (history.count i * frequency)).subtract presence else logits i := by
  simp only [applyFrequencyPresence, foldl_counts, Nat.cast_pos, List.count_pos_iff]
  by_cases seen : i ∈ history
  · rw [if_pos seen, if_pos seen, one_mul]
  · rw [if_neg seen, if_neg seen, List.count_eq_zero_of_not_mem seen]
    simp [Logit.subtract_zero]

/-- A penalty that is off is one that does nothing. -/
theorem penalize_apply (params : SamplingParams) (history : List (Fin n)) (logits : Fin n → Logit) (i : Fin n) :
    penalize logits params history i = penalized params history logits i := by
  have repetition : (if params.repetitionPenalty ≠ 1 then applyRepetitionPenalty logits history params.repetitionPenalty
        else logits) i =
      if i ∈ history then if 0 < logits i then (logits i).divide params.repetitionPenalty
        else (logits i).multiply params.repetitionPenalty else logits i := by
    by_cases off : params.repetitionPenalty = 1
    · have divided : (logits i).divide 1 = logits i := by
        simp only [Logit.divide, div_one]
        exact congrFun WithBot.map_id _
      have multiplied : (logits i).multiply 1 = logits i := by
        simp only [Logit.multiply, mul_one]
        exact congrFun WithBot.map_id _
      rw [if_neg (not_not.mpr off), off, Rat.cast_one, divided, multiplied, ite_self, ite_self]
    · rw [if_pos off, applyRepetitionPenalty_apply]
  unfold penalize penalized
  by_cases off : params.frequencyPenalty ≠ 0 ∨ params.presencePenalty ≠ 0
  · rw [if_pos off, applyFrequencyPresence_apply, repetition]
    by_cases seen : i ∈ history
    · simp only [if_pos seen]
    · simp only [if_neg seen]
  · rw [not_or, not_not, not_not] at off
    rw [if_neg (by simp [off]), repetition, off.1, off.2, Rat.cast_zero, mul_zero, Logit.subtract_zero, Logit.subtract_zero]

/-- The row that `sample` draws from and reports of, whether or not there is a history. -/
theorem adjusted_eq (params : SamplingParams) (history : List (Fin n)) (logits : Fin n → Logit) :
    (if 0 < history.length then penalize logits params history else logits) = penalized params history logits := by
  funext i
  by_cases some : 0 < history.length
  · rw [if_pos some, penalize_apply]
  · obtain rfl := List.eq_nil_of_length_eq_zero (Nat.eq_zero_of_not_pos some)
    rw [if_neg some, penalized, if_neg List.not_mem_nil]

theorem penalized_bot_iff (params : SamplingParams) (history : List (Fin n)) (logits : Fin n → Logit) (i : Fin n) :
    penalized params history logits i = ⊥ ↔ logits i = ⊥ := by
  unfold penalized
  split
  · unfold Logit.subtract
    rw [WithBot.map_eq_bot_iff, WithBot.map_eq_bot_iff]
    split
    · exact Logit.divide_bot_iff
    · exact WithBot.map_eq_bot_iff
  · rfl

/-- Penalties of the usual signs lower what was seen, and nothing else. -/
theorem penalized_le {params : SamplingParams} (repetition : 1 ≤ params.repetitionPenalty)
    (frequency : 0 ≤ params.frequencyPenalty) (presence : 0 ≤ params.presencePenalty) (history : List (Fin n))
    (logits : Fin n → Logit) (i : Fin n) : penalized params history logits i ≤ logits i := by
  have repetition : (1 : ℝ) ≤ params.repetitionPenalty := by exact_mod_cast repetition
  have frequency : (0 : ℝ) ≤ params.frequencyPenalty := by exact_mod_cast frequency
  have presence : (0 : ℝ) ≤ params.presencePenalty := by exact_mod_cast presence
  unfold penalized
  split
  · generalize logits i = x
    induction x using WithBot.recBotCoe with
    | bot => simp [Logit.subtract, Logit.multiply]
    | coe x =>
      have counted : 0 ≤ (history.count i : ℝ) * params.frequencyPenalty := mul_nonneg (Nat.cast_nonneg _) frequency
      split
      next positive =>
        have positive : 0 < x := WithBot.coe_lt_coe.mp positive
        have scaled : x / params.repetitionPenalty ≤ x := div_le_self positive.le repetition
        exact WithBot.coe_le_coe.mpr (by linarith)
      next negative =>
        have negative : x ≤ 0 := WithBot.coe_le_coe.mp (not_lt.mp negative)
        have scaled : x * params.repetitionPenalty ≤ x := by nlinarith
        exact WithBot.coe_le_coe.mpr (by linarith)
  · exact le_rfl

theorem Logit.subtract_le {x y : Logit} (t : ℝ) (le : x ≤ y) : x.subtract t ≤ y.subtract t :=
  WithBot.map_le_iff _ (sub_le_sub_iff_right t) |>.mpr le

/-- Scaling by a repetition penalty keeps the order of the logits. -/
theorem scaled_mono {penalty : ℝ} (positive : 0 < penalty) {x y : Logit} (le : x ≤ y) :
    (if 0 < x then x.divide penalty else x.multiply penalty) ≤ if 0 < y then y.divide penalty else y.multiply penalty := by
  have multiplied : x.multiply penalty ≤ y.multiply penalty :=
    WithBot.map_le_iff _ (mul_le_mul_iff_left₀ positive) |>.mpr le
  by_cases above : 0 < x
  · rw [if_pos above, if_pos (above.trans_le le)]
    exact (Logit.divide_le_divide positive).mpr le
  · rw [if_neg above]
    by_cases above' : 0 < y
    · rw [if_pos above']
      have lower : x.multiply penalty ≤ (0 : Logit).multiply penalty :=
        WithBot.map_le_iff _ (mul_le_mul_iff_left₀ positive) |>.mpr (not_lt.mp above)
      have upper : (0 : Logit).divide penalty ≤ y.divide penalty := (Logit.divide_le_divide positive).mpr above'.le
      have zero : (0 : Logit).multiply penalty = (0 : Logit).divide penalty := by
        show ((0 * penalty : ℝ) : Logit) = ((0 / penalty : ℝ) : Logit)
        rw [zero_mul, zero_div]
      exact lower.trans (zero.le.trans upper)
    · rw [if_neg above']
      exact multiplied

/-- Tokens that were seen equally often keep their order. -/
theorem penalized_mono {params : SamplingParams} (positive : 0 < params.repetitionPenalty) {history : List (Fin n)}
    {logits : Fin n → Logit} {i j : Fin n} (counts : history.count i = history.count j) (le : logits i ≤ logits j) :
    penalized params history logits i ≤ penalized params history logits j := by
  have positive : (0 : ℝ) < params.repetitionPenalty := by exact_mod_cast positive
  have both : i ∈ history ↔ j ∈ history := by rw [← List.count_pos_iff, ← List.count_pos_iff, counts]
  unfold penalized
  by_cases seen : i ∈ history
  · rw [if_pos seen, if_pos (both.mp seen), counts]
    exact Logit.subtract_le _ (Logit.subtract_le _ (scaled_mono positive le))
  · rw [if_neg seen, if_neg (seen ∘ both.mpr)]
    exact le

/-! ### The reported log-probs -/

section logprobs
variable {row : Fin n → Logit}

theorem softmax_le_one (row : Fin n → Logit) (i : Fin n) : softmax row i ≤ 1 :=
  div_le_one_of_le₀ (Finset.single_le_sum (fun j _ => (row j).exp_nonneg) (Finset.mem_univ i))
    (Finset.sum_nonneg fun j _ => (row j).exp_nonneg)

theorem logProbs_le (row : Fin n → Logit) (i : Fin n) : logProbs row i ≤ 0 := by
  unfold logProbs Logit.log
  split
  · exact bot_le
  · exact WithBot.coe_le_coe.mpr (Real.log_nonpos (softmax_nonneg row i) (softmax_le_one row i))

theorem logProbs_bot_iff (finite : ∃ i, row i ≠ ⊥) {i : Fin n} : logProbs row i = ⊥ ↔ row i = ⊥ := by
  rw [← softmax_eq_zero finite]
  unfold logProbs Logit.log
  split
  next zero => exact ⟨fun _ => zero, fun _ => rfl⟩
  next some => exact ⟨fun masked => absurd masked (WithBot.coe_ne_bot), fun zero => absurd zero some⟩

theorem logProbs_mono {i j : Fin n} (le : row i ≤ row j) : logProbs row i ≤ logProbs row j := by
  unfold logProbs Logit.log
  have more : softmax row i ≤ softmax row j := softmax_mono le
  split
  · exact bot_le
  next some =>
    have positive := lt_of_le_of_ne (softmax_nonneg row i) (Ne.symm some)
    rw [if_neg (positive.trans_le more).ne']
    exact WithBot.coe_le_coe.mpr (Real.log_le_log positive more)

end logprobs

/-- The most likely tokens of a distribution, each with its log-prob, the likeliest first. -/
structure MostLikely (dist : Fin n → Logit) (k : Int) (top : List (Fin n × Logit)) : Prop where
  count : top.length = (min k n).toNat
  own : ∀ p ∈ top, p.2 = dist p.1
  distinct : (top.map Prod.fst).Nodup
  descending : top.Pairwise fun p q => q.2 ≤ p.2
  others : ∀ i, i ∉ top.map Prod.fst → ∀ p ∈ top, dist i ≤ p.2

theorem topKLogprobs_mostLikely (argsort : Argsort n (WithTop ℝ)) (dist : Fin n → Logit) {k : Int} (positive : 0 < min k (n : Int)) :
    MostLikely dist k (topKLogprobs argsort dist (min k n).toNat) := by
  have antitone := descending_order argsort dist
  unfold topKLogprobs
  generalize argsort.order (fun i => (dist i).negative) = order at antitone
  have ids : ((((List.finRange n).take (min k n).toNat).map fun j => (order j, dist (order j))).map Prod.fst) =
      ((List.finRange n).take (min k n).toNat).map order := by
    rw [List.map_map]
    rfl
  have ascending : ((List.finRange n).take (min k n).toNat).Pairwise (· < ·) :=
    (List.pairwise_lt_finRange n).sublist (List.take_sublist _ _)
  constructor
  · rw [List.length_map, List.length_take, List.length_finRange]
    omega
  · intro p member
    obtain ⟨j, _, rfl⟩ := List.mem_map.mp member
    rfl
  · rw [ids]
    exact ((List.nodup_finRange n).sublist (List.take_sublist _ _)).map order.injective
  · rw [List.pairwise_map]
    exact ascending.imp fun before => antitone before.le
  · intro i absent p member
    rw [ids] at absent
    obtain ⟨j, early, rfl⟩ := List.mem_map.mp member
    obtain ⟨t, at_j⟩ := List.mem_take_iff_getElem.mp early
    obtain ⟨inside, rfl⟩ := at_j
    have late : (min k n).toNat ≤ order.symm i := by
      by_contra early
      refine absent (List.mem_map.mpr ⟨order.symm i, ?_, order.apply_symm_apply i⟩)
      refine List.mem_take_iff_getElem.mpr ⟨order.symm i, by simp; omega, by simp⟩
    have le : (List.finRange n)[t] ≤ order.symm i := by
      rw [Fin.le_def]
      simp
      omega
    have := antitone le
    rwa [Function.comp_apply, Function.comp_apply, order.apply_symm_apply] at this

theorem attachLogprobs_top (argsort : Argsort n (WithTop ℝ)) (token : Fin n) (dist : Fin n → Logit) (params : SamplingParams) :
    (attachLogprobs argsort token dist params).token = token ∧ (attachLogprobs argsort token dist params).logprob = dist token ∧
      MostLikely dist params.topLogprobs (attachLogprobs argsort token dist params).top := by
  unfold attachLogprobs
  dsimp only
  by_cases none : min params.topLogprobs n ≤ 0
  · rw [if_pos none]
    have noIds : ∀ i : Fin n, i ∉ ([] : List (Fin n × Logit)).map Prod.fst → ∀ p ∈ ([] : List (Fin n × Logit)), dist i ≤ p.2 :=
      fun _ _ => List.forall_mem_nil _
    exact ⟨rfl, rfl, ⟨by simp only [List.length_nil]; omega, List.forall_mem_nil _, List.nodup_nil, .nil, noIds⟩⟩
  · rw [if_neg none]
    exact ⟨rfl, rfl, topKLogprobs_mostLikely argsort dist (not_le.mp none)⟩

/-! ### The draw -/

/-- Where it is drawn, something is left to draw, and only of what was there. -/
theorem filtered_thins (argsort : Argsort n (WithTop ℝ)) {params : SamplingParams} {row : Fin n → Logit}
    (finite : ∃ i, row i ≠ ⊥) (positive : 0 < params.topP) (most : params.minP ≤ 1) :
    (∃ i, filtered argsort params row i ≠ ⊥) ∧ ∀ i, filtered argsort params row i ≠ ⊥ → row i ≠ ⊥ := by
  have finiteScaled : ∃ i, scaled params row i ≠ ⊥ := by
    obtain ⟨i, finite⟩ := finite
    exact ⟨i, fun masked => finite (Logit.divide_bot_iff.mp masked)⟩
  have : Nonempty (Fin n) := ⟨finite.choose⟩
  have byRank := (afterTopK_keeps params finiteScaled).thins finiteScaled
  have finiteRank := finite_of_thins byRank finiteScaled
  have byMass : Thins (afterTopK params (scaled params row)) (afterTopP argsort params (afterTopK params (scaled params row))) := by
    rcases le_or_gt params.topP 1 with within | off
    · exact (afterTopP_keeps argsort finiteRank within).thins (by exact_mod_cast positive) finiteRank
    · rw [afterTopP, if_neg (not_lt.mpr off.le)]
      exact Thins.refl _
  have finiteMass := finite_of_thins byMass finiteRank
  have byPeak := (afterMinP_keeps params finiteMass).thins (by exact_mod_cast most) finiteMass
  refine ⟨finite_of_thins byPeak finiteMass, fun i left masked => left ?_⟩
  rcases ((byRank.trans byMass).trans byPeak).kept i with gone | same
  · exact gone
  · exact same.trans (Logit.divide_bot_iff.mpr masked)

/-- What `sample` may give for a row and a history. -/
structure Draws (argsort : Argsort n (WithTop ℝ)) (params : SamplingParams) (history : List (Fin n)) (logits : Fin n → Logit)
    (out : SampleResult n) : Prop where
  unmasked : logits out.token ≠ ⊥
  greedy : params.temperature ≤ 0 → ∀ i, penalized params history logits i ≤ penalized params history logits out.token
  drawn : 0 < params.temperature → filtered argsort params (penalized params history logits) out.token ≠ ⊥
  logprob : out.logprob = logProbs (penalized params history logits) out.token
  probable : out.logprob ≠ ⊥ ∧ out.logprob ≤ 0
  top : MostLikely (logProbs (penalized params history logits)) params.topLogprobs out.top

variable {argsort : Argsort n (WithTop ℝ)} {argmax : Argmax n} {categorical : Categorical n Key}

/-- The result of `sample` by the token it picked. -/
theorem sample_eq (logits : Fin n → Logit) (params : SamplingParams) (key : Key) (history : List (Fin n)) :
    ∃ token, (sample argsort argmax categorical logits params key history).token = token ∧
      (sample argsort argmax categorical logits params key history).logprob = logProbs (penalized params history logits) token ∧
      MostLikely (logProbs (penalized params history logits)) params.topLogprobs
        (sample argsort argmax categorical logits params key history).top ∧
      token = if params.temperature ≤ 0 then argmax.index (penalized params history logits)
        else categorical.draw (filtered argsort params (penalized params history logits)) key := by
  have reported : ∀ token, let out : SampleResult n := if params.topLogprobs < 0 then
        ⟨token, logProbs (penalized params history logits) token, []⟩
        else attachLogprobs argsort token (logProbs (penalized params history logits)) params
      out.token = token ∧ out.logprob = logProbs (penalized params history logits) token ∧
        MostLikely (logProbs (penalized params history logits)) params.topLogprobs out.top := by
    intro token
    by_cases off : params.topLogprobs < 0
    · have none := attachLogprobs_top argsort token (logProbs (penalized params history logits)) params
      rw [attachLogprobs, if_pos (by omega)] at none
      dsimp only
      rw [if_pos off]
      exact none
    · dsimp only
      rw [if_neg off]
      exact attachLogprobs_top argsort token _ params
  unfold sample
  rw [adjusted_eq]
  dsimp only
  by_cases cold : params.temperature ≤ 0
  · simp only [if_pos cold]
    obtain ⟨token, logprob, top⟩ := reported (argmax.index (penalized params history logits))
    exact ⟨_, token, logprob, top, rfl⟩
  · simp only [if_neg cold]
    obtain ⟨token, logprob, top⟩ := reported
      (categorical.draw (filtered argsort params (penalized params history logits)) key)
    exact ⟨_, token, logprob, top, rfl⟩

/-- A token that is not masked is sampled, the greatest of the penalized row at temperature 0, and reported with the log-probs of
that row. The history counts only by how often each token is in it, and penalties of the usual signs only lower what it holds. -/
theorem sample_draws (params : SamplingParams) {logits : Fin n → Logit} (finite : ∃ i, logits i ≠ ⊥)
    (scale : 0 < params.repetitionPenalty) (hot : 0 < params.temperature → 0 < params.topP ∧ params.minP ≤ 1) (key : Key) (history : List (Fin n)) :
    Draws argsort params history logits (sample argsort argmax categorical logits params key history) ∧
      (∀ history', history'.Perm history → sample argsort argmax categorical logits params key history' =
        sample argsort argmax categorical logits params key history) ∧
      (∀ i, i ∉ history → penalized params history logits i = logits i) ∧
      (∀ i j, history.count i = history.count j → logits i ≤ logits j →
        penalized params history logits i ≤ penalized params history logits j) ∧
      (1 ≤ params.repetitionPenalty → 0 ≤ params.frequencyPenalty → 0 ≤ params.presencePenalty →
        ∀ i, penalized params history logits i ≤ logits i) := by
  obtain ⟨token, same, logprob, top, picked⟩ := @sample_eq n Key argsort argmax categorical logits params key history
  have finiteAdj : ∃ i, penalized params history logits i ≠ ⊥ := by
    obtain ⟨i, finite⟩ := finite
    exact ⟨i, fun masked => finite ((penalized_bot_iff params history logits i).mp masked)⟩
  have left : penalized params history logits token ≠ ⊥ ∧ (0 < params.temperature →
      filtered argsort params (penalized params history logits) token ≠ ⊥) := by
    by_cases cold : params.temperature ≤ 0
    · rw [if_pos cold] at picked
      subst picked
      obtain ⟨i, finiteAdj⟩ := finiteAdj
      refine ⟨fun masked => finiteAdj ?_, fun warm => absurd cold (not_le.mpr warm)⟩
      rw [← le_bot_iff, ← masked]
      exact argmax.greatest _ i
    · rw [if_neg cold] at picked
      subst picked
      obtain ⟨positive, most⟩ := hot (not_le.mp cold)
      obtain ⟨some, thins⟩ := filtered_thins argsort finiteAdj positive most
      have unmasked := categorical.unmasked some key
      exact ⟨thins _ unmasked, fun _ => unmasked⟩
  refine ⟨⟨?_, ?_, ?_, ?_, ⟨?_, ?_⟩, top⟩, fun history' perm => ?_, fun i absent => if_neg absent,
    fun i j counts le => penalized_mono scale counts le, fun r f p => penalized_le r f p history logits⟩
  · rw [same]
    exact fun masked => left.1 ((penalized_bot_iff params history logits token).mpr masked)
  · intro cold i
    rw [same, picked, if_pos cold]
    exact argmax.greatest _ i
  · rw [same]
    exact left.2
  · rw [same, logprob]
  · rw [logprob]
    exact fun masked => left.1 ((logProbs_bot_iff finiteAdj).mp masked)
  · rw [logprob]
    exact logProbs_le _ token
  · have counted : penalized params history' logits = penalized params history logits := by
      funext i
      simp only [penalized, perm.mem_iff, perm.count_eq]
    unfold sample
    rw [adjusted_eq, adjusted_eq, counted]

/-- A greatest entry of a row of three. -/
noncomputable def greatestOfThree : Argmax 3 where
  index row := (Finite.exists_max row).choose
  greatest row := (Finite.exists_max row).choose_spec

/-- The draw at the limit of a low temperature. -/
noncomputable def likeliestOfThree : Categorical 3 Unit where
  draw row _ := greatestOfThree.index row
  unmasked := by
    intro row finite _ masked
    obtain ⟨i, finite⟩ := finite
    refine finite ?_
    rw [← le_bot_iff, ← masked]
    exact greatestOfThree.greatest row i

/-- Two tokens are tied, one of which was seen twice, and the third is masked. -/
theorem sample_draws_seen :
    Draws (Argsort.stable 3 (WithTop ℝ))
      { temperature := 1 / 2, topK := 1, repetitionPenalty := 2, frequencyPenalty := 1 / 10, topLogprobs := 2 } [0, 0] ![1, ⊥, 1]
      (sample (Argsort.stable 3 (WithTop ℝ)) greatestOfThree likeliestOfThree ![1, ⊥, 1]
        { temperature := 1 / 2, topK := 1, repetitionPenalty := 2, frequencyPenalty := 1 / 10, topLogprobs := 2 } () [0, 0]) :=
  (sample_draws { temperature := 1 / 2, topK := 1, repetitionPenalty := 2, frequencyPenalty := 1 / 10, topLogprobs := 2 }
    ⟨0, WithBot.coe_ne_bot⟩ (by norm_num) (fun _ => ⟨by norm_num, by norm_num⟩) () [0, 0]).1

/-! ### The sampler behind the worker -/

/-- Token ids as places of the vocabulary; no history holds another id. -/
def places (n : Nat) (ids : List Int) : Except Fault (List (Fin n)) :=
  ids.mapM fun id =>
    if 0 ≤ id then if inside : id.toNat < n then .ok ⟨id.toNat, inside⟩ else .error .outOfBounds else .error .outOfBounds

/-- The record of a token, its log-probs read as floats. -/
noncomputable def tokenLogprob (float : Logit → Rat) (out : SampleResult n) : TokenLogprob Rat where
  id := out.token
  logprob := float out.logprob
  top := out.top.map fun p => ((p.1 : Int), float p.2)

/-- The calls that the worker and the single stream make. -/
noncomputable def calls (argsort : Argsort n (WithTop ℝ)) (argmax : Argmax n) (categorical : Categorical n Key)
    (float : Logit → Rat) (key : UInt64 → Key) : SamplerCalls (Fin n → Logit) Key where
  greedy row := argmax.index row
  sample row params key history := do
    let history ← places n history
    let out := sample argsort argmax categorical row params key history
    return (out.token, tokenLogprob float out)
  key := key

/-- At temperature 0 and without penalties the sampler is greedy, and its record depends on the row alone. -/
theorem calls_greedy (float : Logit → Rat) (key : UInt64 → Key) :
    (calls argsort argmax categorical float key).Greedy fun row topLogprobs =>
      tokenLogprob float (sample argsort argmax categorical row { temperature := 0, topLogprobs } (key 0) []) := by
  intro row params k cold _
  have record : sample argsort argmax categorical row params k [] =
      sample argsort argmax categorical row { temperature := 0, topLogprobs := params.topLogprobs } (key 0) [] := by
    unfold sample
    rw [adjusted_eq, adjusted_eq, if_pos cold, if_pos le_rfl]
    rfl
  obtain ⟨token, same, -, -, picked⟩ := @sample_eq n Key argsort argmax categorical row params k []
  rw [if_pos cold, show penalized params [] row = row from funext fun _ => if_neg List.not_mem_nil] at picked
  have chosen : (sample argsort argmax categorical row params k []).token = argmax.index row := same.trans picked
  have ran : (calls argsort argmax categorical float key).sample row params k [] =
      .ok ((sample argsort argmax categorical row params k []).token,
        tokenLogprob float (sample argsort argmax categorical row params k [])) := rfl
  rw [ran, chosen, record]
  rfl

end Sampler

end Mlxforge
