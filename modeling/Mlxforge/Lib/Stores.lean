import Mathlib.Data.List.Nodup
import Mathlib.Data.List.Perm.Basic

/-!
Assignments to the elements of a buffer, in the order in which a program makes them.
-/

namespace Mlxforge

variable {α : Type}

/-- The buffer after the assignments `y[i] = v`. -/
def store (y : List α) (writes : List (Nat × α)) : List α := writes.foldl (fun y w => y.set w.1 w.2) y

variable {y : List α} {writes : List (Nat × α)} {i : Nat} {v : α}

theorem store_length (y : List α) (writes : List (Nat × α)) : (store y writes).length = y.length := by
  induction writes generalizing y with
  | nil => rfl
  | cons w writes ih =>
    show (store (y.set w.1 w.2) writes).length = y.length
    rw [ih, List.length_set]

theorem store_getElem?_of_notMem (absent : i ∉ writes.map Prod.fst) : (store y writes)[i]? = y[i]? := by
  induction writes generalizing y with
  | nil => rfl
  | cons w writes ih =>
    rw [List.map_cons, List.mem_cons, not_or] at absent
    show (store (y.set w.1 w.2) writes)[i]? = y[i]?
    rw [ih absent.2, List.getElem?_set_ne (Ne.symm absent.1)]

/-- An element that is assigned once holds what it was assigned. -/
theorem store_getElem? (once : (writes.map Prod.fst).Nodup) (member : (i, v) ∈ writes) (inside : i < y.length) :
    (store y writes)[i]? = some v := by
  induction writes generalizing y with
  | nil => cases member
  | cons w writes ih =>
    rw [List.map_cons, List.nodup_cons] at once
    show (store (y.set w.1 w.2) writes)[i]? = some v
    rcases List.mem_cons.mp member with rfl | later
    · rw [store_getElem?_of_notMem once.1, List.getElem?_set_self inside]
    · exact ih once.2 later (by rwa [List.length_set])

/-- An element that is assigned, always the same value, holds it. -/
theorem store_getElem?_agree {f : Nat → α} (agree : ∀ w ∈ writes, w.2 = f w.1) (member : i ∈ writes.map Prod.fst)
    (inside : i < y.length) : (store y writes)[i]? = some (f i) := by
  induction writes generalizing y with
  | nil => cases member
  | cons w writes ih =>
    change (store (y.set w.1 w.2) writes)[i]? = some (f i)
    by_cases later : i ∈ writes.map Prod.fst
    · exact ih (fun w mem => agree w (List.mem_cons_of_mem _ mem)) later (by rwa [List.length_set])
    · obtain same | absent := List.mem_cons.mp member
      · rw [store_getElem?_of_notMem later, same, List.getElem?_set_self (same ▸ inside), agree w List.mem_cons_self]
      · exact absurd absent later

/-- Every element assigned once: nothing of the old buffer is left. -/
theorem store_of_perm {f : Nat → α} (once : writes.Perm ((List.range y.length).map fun i => (i, f i))) :
    store y writes = (List.range y.length).map f := by
  have keys : ((List.range y.length).map fun i => (i, f i)).map Prod.fst = List.range y.length := by
    rw [List.map_map]
    exact List.map_id _
  have nodup : (writes.map Prod.fst).Nodup := by
    rw [(once.map Prod.fst).nodup_iff, keys]
    exact List.nodup_range
  apply List.ext_getElem?
  intro i
  by_cases inside : i < y.length
  · have member : (i, f i) ∈ writes :=
      once.mem_iff.mpr (List.mem_map_of_mem (List.mem_range.mpr inside))
    rw [store_getElem? nodup member inside, List.getElem?_map, List.getElem?_range inside]
    rfl
  · rw [List.getElem?_eq_none (by rw [store_length]; omega), List.getElem?_eq_none (by simpa using inside)]

/-- Four interleaved runs of assignments are the four runs one after the other, in another order. -/
theorem flatMap_four_perm {ι β : Type} (xs : List ι) (a b c d : ι → β) :
    (xs.flatMap fun x => [a x, b x, c x, d x]).Perm (xs.map a ++ (xs.map b ++ (xs.map c ++ xs.map d))) := by
  have one : ∀ f : ι → β, xs.map f = xs.flatMap fun x => [f x] := fun f => List.map_eq_flatMap
  rw [one a, one b, one c, one d]
  have last := List.flatMap_append_perm xs (fun x => [c x]) fun x => [d x]
  have later := (last.append_left (xs.flatMap fun x => [b x])).trans (List.flatMap_append_perm xs _ _)
  exact ((later.append_left (xs.flatMap fun x => [a x])).trans (List.flatMap_append_perm xs _ _)).symm

end Mlxforge
