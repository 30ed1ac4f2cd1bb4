import Mathlib.Tactic

/-!
The gaps between ascending marks and the end behind the last one, in arithmetic modulo `M`: they add up to the distance
from the first mark to the end exactly when no subtraction wraps around.
-/

namespace Gaps

/-- Unsigned subtraction. -/
def wrapSub (M a b : Nat) : Nat := (((a : Int) - b) % M).toNat

def gaps (M stop : Nat) : List Nat → List Nat
  | [] => []
  | a :: rest => wrapSub M (rest.headD stop) a :: gaps M stop rest

variable {M stop a b : Nat} {marks : List Nat}

theorem wrapSub_cast (positive : 0 < M) (a b : Nat) : (wrapSub M a b : Int) = ((a : Int) - b) % M :=
  Int.toNat_of_nonneg (Int.emod_nonneg _ (by omega))

theorem wrapSub_of_le (below : a < M) (ordered : b ≤ a) : wrapSub M a b = a - b := by
  rw [wrapSub, Int.emod_eq_of_lt (by omega) (by omega)]
  omega

/-- Two subtractions in a row wrap at most as one does. -/
theorem wrapSub_wrapSub (positive : 0 < M) (a b c : Nat) : wrapSub M (wrapSub M a b) c = wrapSub M a (b + c) := by
  have same : (wrapSub M (wrapSub M a b) c : Int) = wrapSub M a (b + c) := by
    rw [wrapSub_cast positive, wrapSub_cast positive, wrapSub_cast positive, Int.emod_sub_emod]
    congr 1
    omega
  exact Int.ofNat.inj same

theorem wrapSub_add_eq_iff (below : a < M) : wrapSub M a b + b = a ↔ b ≤ a := by
  constructor
  · intro same
    omega
  · intro ordered
    rw [wrapSub_of_le below ordered]
    omega

/-- The gaps reach from the first mark to the last one and on to the end. -/
theorem sum_gaps (small : ∀ m ∈ a :: marks, m < M) (ascending : (a :: marks).Pairwise (· ≤ ·)) :
    (gaps M stop (a :: marks)).sum + a =
      wrapSub M stop ((a :: marks).getLast (by simp)) + (a :: marks).getLast (by simp) := by
  induction marks generalizing a with
  | nil => simp [gaps]
  | cons b marks ih =>
    obtain ⟨first, later⟩ := List.pairwise_cons.mp ascending
    have ordered := first b List.mem_cons_self
    have rest := ih (fun m member => small m (.tail _ member)) later
    rw [gaps, List.headD_cons, wrapSub_of_le (small b (by simp)) ordered, List.sum_cons, List.getLast_cons (by simp)]
    omega

theorem le_getLast (ascending : (a :: marks).Pairwise (· ≤ ·)) {m : Nat} (member : m ∈ a :: marks) :
    m ≤ (a :: marks).getLast (by simp) := by
  induction marks generalizing a m with
  | nil => simp_all
  | cons b marks ih =>
    obtain ⟨first, later⟩ := List.pairwise_cons.mp ascending
    rw [List.getLast_cons (by simp)]
    rcases List.mem_cons.mp member with rfl | member
    · exact (first b List.mem_cons_self).trans (ih later List.mem_cons_self)
    · exact ih later member

/-- With the end at `size`, `start` before the marks' origin: the gaps fill the range from the first mark to the end, and
none of them exceeds it, exactly if no mark lies behind the end. -/
theorem gaps_fill_iff {size start : Nat} (inside : size < M) (small : ∀ m ∈ a :: marks, m < M)
    (ascending : (a :: marks).Pairwise (· ≤ ·)) :
    ((∀ g ∈ gaps M (wrapSub M size start) (a :: marks), g ≤ size) ∧
        ((gaps M (wrapSub M size start) (a :: marks)).sum : Int) = size - (start + a : Nat)) ↔
      ∀ m ∈ a :: marks, start + m ≤ size := by
  have positive : 0 < M := by omega
  have total := @sum_gaps M (wrapSub M size start) a marks small ascending
  rw [wrapSub_wrapSub positive] at total
  have last_mem : (a :: marks).getLast (by simp) ∈ a :: marks := List.getLast_mem _
  have all_iff : (∀ m ∈ a :: marks, start + m ≤ size) ↔ start + (a :: marks).getLast (by simp) ≤ size := by
    constructor
    · exact fun all => all _ last_mem
    · intro last m member
      have ordered := le_getLast ascending member
      omega
  rw [all_iff, ← wrapSub_add_eq_iff inside]
  generalize (a :: marks).getLast (by simp) = last at total
  generalize gaps M (wrapSub M size start) (a :: marks) = pieces at total
  constructor
  · intro facts
    have sum := facts.2
    omega
  · intro whole
    have sum : (pieces.sum : Int) = size - (start + a : Nat) := by omega
    refine ⟨fun g member => ?_, sum⟩
    have part := List.le_sum_of_mem member
    omega

end Gaps
