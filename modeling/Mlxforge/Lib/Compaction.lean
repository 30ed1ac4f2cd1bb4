import Mathlib.Tactic

/-!
A vector compacted in place down to the elements at ascending indices. Element `i` of the result is assigned from index
`keep[i]`, which is `i` or lies ahead of it.
-/

namespace Compaction

variable {α : Type}

/-- `xs[dst] = xs[src]`. -/
def copyTo (xs : List α) (dst src : Nat) : List α :=
  match xs[src]? with
  | some x => xs.set dst x
  | none => xs

/-- `xs[dst] = std::move(xs[src])` of vectors: `dst` takes the buffer of `src` and leaves `src` empty, also where both
are the same vector. -/
def moveTo (xs : List (List α)) (dst src : Nat) : List (List α) := (copyTo xs dst src).set src []

def compact (assign : List α → Nat → Nat → List α) (keep : List Nat) (xs : List α) : List α :=
  (keep.zipIdx.foldl (fun xs p => assign xs p.2 p.1) xs).take keep.length

/-- An assignment in place; assigning an element to itself leaves `leave` of it. -/
structure Assigns (leave : α → α) (assign : List α → Nat → Nat → List α) : Prop where
  length : ∀ xs dst src, (assign xs dst src).length = xs.length
  target : ∀ {xs dst src x}, dst < xs.length → xs[src]? = some x →
    (assign xs dst src)[dst]? = some (if src = dst then leave x else x)
  other : ∀ {xs dst src i}, i ≠ dst → i ≠ src → (assign xs dst src)[i]? = xs[i]?

theorem copyTo_eq {xs : List α} {dst src : Nat} {x : α} (found : xs[src]? = some x) : copyTo xs dst src = xs.set dst x := by
  unfold copyTo
  rw [found]

theorem copyTo_length (xs : List α) (dst src : Nat) : (copyTo xs dst src).length = xs.length := by
  unfold copyTo
  split
  · rw [List.length_set]
  · rfl

theorem copyTo_other (xs : List α) {dst i : Nat} (src : Nat) (other : i ≠ dst) : (copyTo xs dst src)[i]? = xs[i]? := by
  unfold copyTo
  split
  · rw [List.getElem?_set_ne (Ne.symm other)]
  · rfl

theorem assigns_copyTo : Assigns (id : α → α) copyTo where
  length := copyTo_length
  target := by
    intro xs dst src x inside found
    rw [copyTo_eq found, List.getElem?_set_self inside]
    simp
  other := fun other _ => copyTo_other _ _ other

theorem assigns_moveTo : Assigns (fun _ => []) (moveTo : List (List α) → Nat → Nat → List (List α)) where
  length := by
    intro xs dst src
    rw [moveTo, List.length_set, copyTo_length]
  target := by
    intro xs dst src x inside found
    rw [moveTo, copyTo_eq found]
    by_cases same : src = dst
    · subst same
      rw [List.getElem?_set_self (by rwa [List.length_set]), if_pos rfl]
    · rw [List.getElem?_set_ne same, List.getElem?_set_self inside, if_neg same]
  other := by
    intro xs dst src i target source
    rw [moveTo, List.getElem?_set_ne (Ne.symm source), copyTo_other _ _ target]

variable {leave : α → α} {assign : List α → Nat → Nat → List α} {xs : List α}

/-- The loop from element `n` on: what lies before `n` stays, and each source is still untouched when it is read. -/
theorem loop_spec {keep : List Nat} (assigns : Assigns leave assign) (n : Nat) (ascending : keep.Pairwise (· < ·))
    (later : ∀ k ∈ keep, n ≤ k) (inside : ∀ k ∈ keep, k < xs.length) :
    ((keep.zipIdx n).foldl (fun xs p => assign xs p.2 p.1) xs).length = xs.length ∧
      (∀ i < n, ((keep.zipIdx n).foldl (fun xs p => assign xs p.2 p.1) xs)[i]? = xs[i]?) ∧
      ∀ j k, keep[j]? = some k → ((keep.zipIdx n).foldl (fun xs p => assign xs p.2 p.1) xs)[n + j]? =
        xs[k]?.map fun x => if k = n + j then leave x else x := by
  induction keep generalizing n xs with
  | nil => exact ⟨rfl, fun _ _ => rfl, by simp⟩
  | cons k keep ih =>
    obtain ⟨ahead, ascending⟩ := List.pairwise_cons.mp ascending
    have start := later k (by simp)
    have bound := inside k (by simp)
    obtain ⟨length, before, after⟩ := @ih (assign xs n k) (n + 1) ascending
      (fun k' member => Nat.lt_of_le_of_lt start (ahead k' member))
      (fun k' member => by rw [assigns.length]; exact inside k' (by simp [member]))
    rw [List.zipIdx_cons, List.foldl_cons]
    dsimp only
    refine ⟨length.trans (assigns.length _ _ _), ?_, ?_⟩
    · intro i earlier
      rw [before i (by omega), assigns.other (by omega) (by omega)]
    · intro j k' kept
      cases j with
      | zero =>
        obtain rfl : k = k' := by simpa using kept
        have found : xs[k]? = some xs[k] := List.getElem?_eq_getElem bound
        simp only [Nat.add_zero]
        rw [before n (by omega), assigns.target (by omega) found, found]
        rfl
      | succ j =>
        have kept : keep[j]? = some k' := by simpa using kept
        have further := ahead k' (List.mem_of_getElem? kept)
        rw [Nat.add_comm j 1, ← Nat.add_assoc, after j k' kept, assigns.other (by omega) (by omega)]

theorem compact_getElem? {keep : List Nat} (assigns : Assigns leave assign) (ascending : keep.Pairwise (· < ·))
    (inside : ∀ k ∈ keep, k < xs.length) (i : Nat) :
    (compact assign keep xs)[i]? = keep[i]?.bind fun k => xs[k]?.map fun x => if k = i then leave x else x := by
  obtain ⟨_, _, reads⟩ := loop_spec assigns 0 ascending (fun k _ => Nat.zero_le k) inside
  rw [compact, List.getElem?_take]
  cases kept : keep[i]? with
  | none =>
    rw [List.getElem?_eq_none_iff] at kept
    rw [if_neg (by omega)]
    rfl
  | some k =>
    have bound := (List.getElem?_eq_some_iff.mp kept).1
    have read := reads i k kept
    rw [Nat.zero_add] at read
    rw [if_pos bound, read]
    rfl

end Compaction
