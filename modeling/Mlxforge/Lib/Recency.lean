import Mathlib.Data.List.Nodup
import Mathlib.Tactic

/-!
Lists in order of use. The log names the uses, the latest one first; a list of keys is in order of use when each key
was used later than the keys behind it. Under a budget such a list keeps its longest front part that fits.
-/

namespace Recency

variable {α : Type} [DecidableEq α]

structure ByUse (log keys : List α) : Prop where
  nodup : keys.Nodup
  used : ∀ a ∈ keys, a ∈ log
  order : keys.Pairwise fun a b => log.idxOf a < log.idxOf b

variable {log keys : List α} {a : α}

theorem ByUse.nil : ByUse ([] : List α) [] := ⟨.nil, nofun, .nil⟩

/-- The used key is put in front. -/
theorem ByUse.use (sorted : ByUse log keys) (a : α) : ByUse (a :: log) (a :: keys.erase a) where
  nodup := List.nodup_cons.mpr ⟨sorted.nodup.not_mem_erase, sorted.nodup.erase a⟩
  used := by
    intro b member
    rcases List.mem_cons.mp member with rfl | member
    · exact List.mem_cons_self
    · exact List.mem_cons_of_mem _ (sorted.used b (List.mem_of_mem_erase member))
  order := by
    have later : ∀ b ∈ keys.erase a, (a :: log).idxOf b = log.idxOf b + 1 := by
      intro b member
      have other : b ≠ a := ((sorted.nodup.mem_erase_iff).mp member).1
      exact List.idxOf_cons_ne _ (Ne.symm other)
    refine List.pairwise_cons.mpr ⟨fun b member => ?_, ?_⟩
    · rw [later b member, List.idxOf_cons_self]
      exact Nat.succ_pos _
    · refine ((sorted.order.sublist List.erase_sublist).imp_of_mem fun {b c} hb hc before => ?_)
      rw [later b hb, later c hc]
      exact Nat.succ_lt_succ before

theorem ByUse.sublist (sorted : ByUse log keys) {kept : List α} (part : kept.Sublist keys) : ByUse log kept :=
  ⟨sorted.nodup.sublist part, fun a member => sorted.used a (part.subset member), sorted.order.sublist part⟩

/-! ### The front part that fits a budget -/

section fitting

variable {β : Type} (size : β → Nat)

/-- The longest front part of a list whose sizes add up to at most the budget. -/
def fitting : Nat → List β → List β
  | _, [] => []
  | budget, b :: rest => if size b ≤ budget then b :: fitting (budget - size b) rest else []

variable {size} {budget : Nat} {kept rest : List β} {b : β}

/-- A front part that fits, and whose next element does not fit any more, is the longest. -/
theorem fitting_eq (fits : (kept.map size).sum ≤ budget)
    (next : ∀ b, rest.head? = some b → budget < (kept.map size).sum + size b) : fitting size budget (kept ++ rest) = kept := by
  induction kept generalizing budget with
  | nil =>
    cases rest with
    | nil => rfl
    | cons b rest =>
      have large := next b rfl
      rw [List.map_nil, List.sum_nil, Nat.zero_add] at large
      show fitting size budget (b :: rest) = []
      rw [fitting, if_neg (Nat.not_le.mpr large)]
  | cons a kept ih =>
    rw [List.map_cons, List.sum_cons] at fits next
    rw [List.cons_append, fitting, if_pos (by omega), ih (by omega)]
    intro b first
    have large := next b first
    omega

theorem fitting_of_le (fits : (kept.map size).sum ≤ budget) : fitting size budget kept = kept := by
  have whole : fitting size budget (kept ++ []) = kept := fitting_eq fits (by simp)
  rwa [List.append_nil] at whole

theorem fitting_append (fits : (kept.map size).sum ≤ budget) :
    fitting size budget (kept ++ rest) = kept ++ fitting size (budget - (kept.map size).sum) rest := by
  induction kept generalizing budget with
  | nil => rfl
  | cons a kept ih =>
    rw [List.map_cons, List.sum_cons] at fits ⊢
    rw [List.cons_append, fitting, if_pos (by omega), ih (by omega), Nat.sub_sub, List.cons_append]

theorem fitting_front (size : β → Nat) (budget : Nat) (l : List β) :
    ∃ rest, l = fitting size budget l ++ rest ∧ ((fitting size budget l).map size).sum ≤ budget ∧
      ∀ b, rest.head? = some b → budget < ((fitting size budget l).map size).sum + size b := by
  induction l generalizing budget with
  | nil => exact ⟨[], rfl, Nat.zero_le _, by simp⟩
  | cons a l ih =>
    rw [fitting]
    split
    · rename_i room
      obtain ⟨rest, whole, fits, next⟩ := ih (budget - size a)
      refine ⟨rest, by rw [List.cons_append, ← whole], ?_, fun b first => ?_⟩
      · rw [List.map_cons, List.sum_cons]
        omega
      · have large := next b first
        rw [List.map_cons, List.sum_cons]
        omega
    · rename_i large
      refine ⟨a :: l, rfl, Nat.zero_le _, fun b first => ?_⟩
      obtain rfl : a = b := Option.some.inj first
      rw [List.map_nil, List.sum_nil, Nat.zero_add]
      exact Nat.not_le.mp large

/-- Adding to a list that was cut to the budget is adding to the whole list. -/
theorem fitting_cons_fitting (b : β) (l : List β) :
    fitting size budget (b :: fitting size budget l) = fitting size budget (b :: l) := by
  have nested : ∀ (l : List β) (large small : Nat), small ≤ large →
      fitting size small (fitting size large l) = fitting size small l := by
    intro l
    induction l with
    | nil => intro _ _ _; rfl
    | cons a l ih =>
      intro large small le
      by_cases room : size a ≤ large
      · rw [fitting, if_pos room, fitting, fitting, ih _ _ (Nat.sub_le_sub_right le _)]
      · rw [fitting, if_neg room, fitting, fitting, if_neg (by omega)]
  rw [fitting, fitting, nested l _ _ (Nat.sub_le _ _)]

/-- An element stays exactly when it fits with all in front of it. -/
theorem mem_fitting_iff (nodup : (kept ++ b :: rest).Nodup) :
    b ∈ fitting size budget (kept ++ b :: rest) ↔ (kept.map size).sum + size b ≤ budget := by
  constructor
  · intro member
    obtain ⟨cut, whole, fits, _⟩ := fitting_front size budget (kept ++ b :: rest)
    generalize fitting size budget (kept ++ b :: rest) = front at member whole fits
    obtain ⟨before, after, rfl⟩ := List.append_of_mem member
    rw [List.append_assoc, List.cons_append] at whole
    rw [whole, List.nodup_middle, List.nodup_cons, List.mem_append, not_or] at nodup
    obtain ⟨same, _⟩ := (List.append_cons_inj_of_notMem nodup.1.1 nodup.1.2).mp whole.symm
    rw [same, List.map_append, List.sum_append, List.map_cons, List.sum_cons] at fits
    omega
  · intro fits
    have split : (kept.map size).sum ≤ budget := by omega
    rw [fitting_append split, fitting, if_pos (by omega)]
    exact List.mem_append_right _ List.mem_cons_self

end fitting

end Recency
