import Mathlib.Tactic

/-! Reasoning about computations that can throw, and about walks over lists. -/

namespace Mlxforge

variable {ε α β : Type}

theorem bind_ok {x : Except ε α} {f : α → Except ε β} {b : β} (h : x >>= f = .ok b) :
    ∃ a, x = .ok a ∧ f a = .ok b := by
  cases x with
  | error e => cases h
  | ok a => exact ⟨a, rfl, h⟩

theorem pure_ok {a b : α} (h : (pure a : Except ε α) = .ok b) : a = b := Except.ok.inj h

theorem toOption_some {x : Except ε α} {a : α} (h : x.toOption = some a) : x = .ok a := by
  cases x with
  | error e => cases h
  | ok b => rw [Option.some.inj h]

@[simp] theorem ok_bind (a : α) (f : α → Except ε β) : (Except.ok a : Except ε α) >>= f = f a := rfl

theorem mapM_cons_ok {f : α → Except ε β} {x : α} {xs : List α} {y : β} {ys : List β}
    (head : f x = .ok y) (tail : xs.mapM f = .ok ys) : (x :: xs).mapM f = .ok (y :: ys) := by
  rw [List.mapM_cons, head]
  simp only [ok_bind, tail]
  rfl

/-- A walk whose every step succeeds succeeds, and relates the items pairwise. -/
theorem mapM_forall₂ {f : α → Except ε β} {P : α → β → Prop} {xs : List α}
    (step : ∀ x ∈ xs, ∃ y, f x = .ok y ∧ P x y) :
    ∃ ys, xs.mapM f = .ok ys ∧ List.Forall₂ P xs ys := by
  induction xs with
  | nil => exact ⟨[], rfl, .nil⟩
  | cons x xs ih =>
    obtain ⟨y, head, py⟩ := step x (by simp)
    obtain ⟨ys, tail, pys⟩ := ih fun x hx => step x (by simp [hx])
    exact ⟨y :: ys, mapM_cons_ok head tail, .cons py pys⟩

theorem mapM_ok {f : α → Except ε β} {g : α → β} {xs : List α} (step : ∀ x ∈ xs, f x = .ok (g x)) :
    xs.mapM f = .ok (xs.map g) := by
  induction xs with
  | nil => rfl
  | cons x xs ih => exact mapM_cons_ok (step x (by simp)) (ih fun x hx => step x (by simp [hx]))

theorem map_eq_of_forall₂ {γ : Type} {f : α → γ} {g : β → γ} {as : List α} {bs : List β}
    (h : List.Forall₂ (fun a b => f a = g b) as bs) : as.map f = bs.map g := by
  induction h with
  | nil => rfl
  | cons head _ ih => rw [List.map_cons, List.map_cons, head, ih]

theorem exists_of_forall₂_right {R : α → β → Prop} {as : List α} {bs : List β}
    (h : List.Forall₂ R as bs) {b : β} (member : b ∈ bs) : ∃ a ∈ as, R a b := by
  induction h with
  | nil => simp at member
  | @cons a b' as bs head _ ih =>
    rcases List.mem_cons.mp member with rfl | member
    · exact ⟨a, by simp, head⟩
    · obtain ⟨x, hx, related⟩ := ih member
      exact ⟨x, by simp [hx], related⟩

theorem exists_of_forall₂_left {R : α → β → Prop} {as : List α} {bs : List β}
    (h : List.Forall₂ R as bs) {a : α} (member : a ∈ as) : ∃ b ∈ bs, R a b := by
  obtain ⟨b, listed, related⟩ := exists_of_forall₂_right h.flip member
  exact ⟨b, listed, related⟩

theorem mapM_length {f : α → Except ε β} {xs : List α} {ys : List β} (ok : xs.mapM f = .ok ys) :
    ys.length = xs.length := by
  induction xs generalizing ys with
  | nil =>
    obtain rfl := pure_ok ok
    rfl
  | cons x xs ih =>
    rw [List.mapM_cons] at ok
    obtain ⟨y, _, ok⟩ := bind_ok ok
    obtain ⟨ys, tail, ok⟩ := bind_ok ok
    obtain rfl := pure_ok ok
    rw [List.length_cons, List.length_cons, ih tail]

/-- A walk that succeeded did so at every item. -/
theorem mapM_getElem {f : α → Except ε β} {xs : List α} {ys : List β} (ok : xs.mapM f = .ok ys)
    {i : Nat} {x : α} (item : xs[i]? = some x) : ∃ y, ys[i]? = some y ∧ f x = .ok y := by
  induction xs generalizing ys i with
  | nil => simp at item
  | cons a xs ih =>
    rw [List.mapM_cons] at ok
    obtain ⟨b, head, ok⟩ := bind_ok ok
    obtain ⟨bs, tail, ok⟩ := bind_ok ok
    obtain rfl := pure_ok ok
    cases i with
    | zero =>
      obtain rfl : a = x := by simpa using item
      exact ⟨b, rfl, head⟩
    | succ i => exact ih tail (by simpa using item)

/-- What a walk gave came from an item. -/
theorem mapM_source {f : α → Except ε β} {xs : List α} {ys : List β} (ok : xs.mapM f = .ok ys) {y : β} (member : y ∈ ys) :
    ∃ x ∈ xs, f x = .ok y := by
  obtain ⟨i, inside, rfl⟩ := List.getElem_of_mem member
  have room : i < xs.length := mapM_length ok ▸ inside
  obtain ⟨y, found, made⟩ := mapM_getElem ok (List.getElem?_eq_getElem room)
  obtain rfl := Option.some.inj ((List.getElem?_eq_getElem inside).symm.trans found)
  exact ⟨xs[i], List.getElem_mem room, made⟩

end Mlxforge
