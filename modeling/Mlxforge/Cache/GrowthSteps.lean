import Mlxforge.Cache.RowAppend

/-!
# Capacity

How many slots the stores of a cache have after its forward passes. A store that is full grows by whole steps, from the
written length or from its capacity, so what it ends with depends on how the tokens arrive.
-/

namespace Mlxforge

variable {V : Type}

/-- The capacity after `L` positions are written behind the first `n`. -/
def grownCap (step cap n L : Nat) : Nat :=
  if cap < n + L then (if n % step ≠ 0 then n else cap) + (step + L - 1) / step * step else cap

/-- The capacity and the written length after chunks of the given lengths. -/
def arrivals (step : Nat) : List Nat → Nat × Nat
  | [] => (0, 0)
  | L :: chunks =>
    let before := arrivals step chunks
    (grownCap step before.1 before.2 L, before.2 + L)

/-- The slots of a store to which chunks of these lengths were written, one after the other. -/
def slotsAfter (step : Nat) (chunks : List Nat) : Nat := (arrivals step chunks.reverse).1

theorem arrivals_len (step : Nat) (chunks : List Nat) : (arrivals step chunks).2 = chunks.sum := by
  induction chunks with
  | nil => rfl
  | cons L chunks ih => rw [arrivals, List.sum_cons, ih, Nat.add_comm]

theorem le_grownCap {step : Nat} (positive : 0 < step) (cap n L : Nat) (room : n ≤ cap) : n + L ≤ grownCap step cap n L := by
  have added := chunk_le_added step L positive
  unfold grownCap
  split
  · split <;> omega
  · omega

theorem len_le_arrivals {step : Nat} (positive : 0 < step) (chunks : List Nat) :
    (arrivals step chunks).2 ≤ (arrivals step chunks).1 := by
  induction chunks with
  | nil => exact le_rfl
  | cons L chunks ih => exact le_grownCap positive _ _ L ih

theorem sum_le_slotsAfter {step : Nat} (positive : 0 < step) (chunks : List Nat) : chunks.sum ≤ slotsAfter step chunks := by
  have filled := len_le_arrivals positive chunks.reverse
  rwa [arrivals_len, List.sum_reverse] at filled

theorem slotsAfter_concat (step : Nat) (chunks : List Nat) (L : Nat) :
    slotsAfter step (chunks ++ [L]) = grownCap step (slotsAfter step chunks) chunks.sum L := by
  rw [slotsAfter, List.reverse_append, List.reverse_singleton, List.singleton_append, arrivals, arrivals_len,
    List.sum_reverse, ← slotsAfter]

/-- A whole prefill and single decoded tokens round the length up to whole steps. -/
theorem slotsAfter_decoded {step : Nat} (positive : 0 < step) {prompt : Nat} (some : 0 < prompt) (decoded : Nat) :
    slotsAfter step (prompt :: List.replicate decoded 1) = (step + (prompt + decoded) - 1) / step * step := by
  induction decoded with
  | zero =>
    rw [List.replicate_zero, slotsAfter, List.reverse_singleton, arrivals, arrivals]
    simp only [grownCap, Nat.zero_add, Nat.zero_mod, ne_eq, not_true_eq_false, if_false, Nat.add_zero, if_pos some]
  | succ decoded ih =>
    have sum : (prompt :: List.replicate decoded 1).sum = prompt + decoded := by simp
    have one : (step + 1 - 1) / step = 1 := by rw [Nat.add_sub_cancel, Nat.div_self positive]
    rw [List.replicate_succ', ← List.cons_append, slotsAfter_concat, ih, sum, grownCap, one, Nat.one_mul]
    generalize total : prompt + decoded = n
    have split : (step + n - 1) / step * step + (step + n - 1) % step = step + n - 1 := Nat.div_add_mod' _ _
    have small := Nat.mod_lt (step + n - 1) positive
    by_cases full : (step + n - 1) / step * step < n + 1
    · have exact_ : (step + n - 1) / step * step = n := by omega
      have whole : n % step = 0 := by rw [← exact_, Nat.mul_mod_left]
      have next : (step + (n + 1) - 1) / step = n / step + 1 := by
        rw [show step + (n + 1) - 1 = n + step by omega, Nat.add_div_right n positive]
      rw [if_pos full, if_neg (by simp [whole]), exact_, show prompt + (decoded + 1) = n + 1 by omega, next, Nat.succ_mul,
        Nat.div_mul_cancel (Nat.dvd_of_mod_eq_zero whole)]
    · have same : (step + (n + 1) - 1) / step = (step + n - 1) / step := by
        apply Nat.div_eq_of_lt_le
        · omega
        · rw [Nat.succ_mul]
          omega
      rw [if_neg full, show prompt + (decoded + 1) = n + 1 by omega, same]

/-! ### One write -/

section write
variable {B n L step cap : Nat} {store inp out store' : List (KvArray V)}

theorem zipComponents_shape {f : KvArray V → KvArray V → Except Fault (KvArray V)} {B' cap' : Nat}
    {as cs ys : List (KvArray V)} (ok : zipComponents f as cs = .ok ys)
    (shape : ∀ a ∈ as, ∀ c ∈ cs, ∀ y, f a c = .ok y → y.batch = B' ∧ y.cap = cap') : Stored B' cap' ys := by
  induction as generalizing cs ys with
  | nil =>
    obtain rfl : [] = ys := Except.ok.inj ok
    exact stored_nil B' cap'
  | cons a as ih =>
    cases cs with
    | nil =>
      obtain rfl : [] = ys := Except.ok.inj ok
      exact stored_nil B' cap'
    | cons c cs =>
      obtain ⟨y, head, ok⟩ := bind_ok ok
      obtain ⟨rest, tail, ok⟩ := bind_ok ok
      obtain rfl := pure_ok ok
      have others := ih tail fun a ha c hc => shape a (by simp [ha]) c (by simp [hc])
      intro x member
      rcases List.mem_cons.mp member with rfl | member
      · exact shape a (by simp) c (by simp) x head
      · exact others x member

theorem sliceUpdate_shape {a upd y : KvArray V} {start stop : Int} (ok : a.sliceUpdate upd start stop = .ok y) :
    y.batch = a.batch ∧ y.cap = a.cap := by
  rw [KvArray.sliceUpdate] at ok
  split at ok
  · obtain rfl := Except.ok.inj ok
    exact ⟨rfl, rfl⟩
  · cases ok

theorem concatSeq_shape {a c y : KvArray V} (ok : a.concatSeq c = .ok y) : y.batch = a.batch ∧ y.cap = a.cap + c.cap := by
  rw [KvArray.concatSeq] at ok
  split at ok
  · obtain rfl := Except.ok.inj ok
    exact ⟨rfl, rfl⟩
  · cases ok

theorem growComponent_shape [Slot V] {add : Nat} {cur a y : KvArray V} (room : n ≤ cur.cap)
    (ok : growComponent step add n cur a = .ok y) :
    y.batch = cur.batch ∧ y.cap = (if n % step ≠ 0 then n else cur.cap) + add := by
  have whole : ((n : Int) % step ≠ 0) ↔ n % step ≠ 0 := by omega
  rw [growComponent] at ok
  simp only [whole] at ok
  split at ok
  next part =>
    obtain ⟨batch, size⟩ := concatSeq_shape ok
    rw [KvArray.sliceSeq_prefix cur room] at batch size
    rw [if_pos part]
    exact ⟨batch, size⟩
  next rest =>
    obtain ⟨batch, size⟩ := concatSeq_shape ok
    rw [if_neg rest]
    exact ⟨batch, size⟩

/-- What a write leaves of the capacity, for an untouched store as for one with room for what is written. -/
theorem updateKvComponents_cap [Slot V] (some : inp ≠ []) (chunk : Stored B L inp)
    (cur : store = [] ∧ n = 0 ∧ cap = 0 ∨ store ≠ [] ∧ n ≤ cap ∧ Stored B cap store)
    (ok : updateKvComponents store inp n step = .ok (store', out)) : Stored B (grownCap step cap n L) store' := by
  have len := seqLen_stored chunk some
  have written : ∀ base : List (KvArray V), Stored B (grownCap step cap n L) base → (do
      let written ← zipComponents (fun cur a => cur.sliceUpdate a n (n + L : Int)) base inp
      pure (written, written.map (KvArray.sliceSeq · 0 (n + L : Int)))) = .ok (store', out) →
      Stored B (grownCap step cap n L) store' := by
    intro base sized ok
    obtain ⟨result, wrote, ok⟩ := bind_ok ok
    obtain ⟨rfl, _⟩ := Prod.mk.inj (pure_ok ok)
    refine zipComponents_shape wrote fun a ha c _ y made => ?_
    have shape := sliceUpdate_shape made
    rw [(sized a ha).1, (sized a ha).2] at shape
    exact shape
  simp only [updateKvComponents, len] at ok
  rcases cur with ⟨rfl, rfl, rfl⟩ | ⟨used, room, stored⟩
  · rw [if_pos rfl] at ok
    refine written _ ?_ ok
    have first : grownCap step 0 0 L = (step + L - 1) / step * step := by
      unfold grownCap
      by_cases none : L = 0
      · subst none
        cases step with
        | zero => simp
        | succ step => simp
      · rw [if_pos (by omega), Nat.zero_mod]
        simp
    rw [first]
    exact stored_map chunk fun a batch _ => ⟨batch, rfl⟩
  · have held := seqLen_stored stored used
    rw [if_neg used, held] at ok
    by_cases full : cap < n + L
    · rw [if_pos (by omega)] at ok
      obtain ⟨grown, grew, ok⟩ := bind_ok ok
      refine written grown ?_ ok
      rw [grownCap, if_pos full]
      refine zipComponents_shape grew fun a ha c _ y made => ?_
      obtain ⟨batch, size⟩ := stored a ha
      have shape := growComponent_shape (by rw [size]; exact room) made
      rw [batch, size] at shape
      exact shape
    · rw [if_neg (by omega)] at ok
      refine written store ?_ ok
      rw [grownCap, if_neg full]
      exact stored

end write

end Mlxforge
