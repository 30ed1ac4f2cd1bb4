/-!
Texts of fields joined by a separator: the last field can be read off when it does not contain the separator.
-/

theorem append_field_inj {α : Type} {sep : α} {xs ys a b : List α} (left : sep ∉ a) (right : sep ∉ b)
    (same : xs ++ [sep] ++ a = ys ++ [sep] ++ b) : xs = ys ∧ a = b := by
  rw [List.append_assoc, List.append_assoc, List.singleton_append, List.singleton_append] at same
  induction xs generalizing ys with
  | nil =>
    cases ys with
    | nil => exact ⟨rfl, by simpa using same⟩
    | cons y ys =>
      have tail : a = ys ++ sep :: b := (List.cons.inj same).2
      exact absurd (by rw [tail]; simp) left
  | cons x xs ih =>
    cases ys with
    | nil =>
      have tail : xs ++ sep :: a = b := (List.cons.inj same).2
      exact absurd (by rw [← tail]; simp) right
    | cons y ys =>
      obtain ⟨rfl, tail⟩ := List.cons.inj same
      obtain ⟨rfl, rfl⟩ := ih tail
      exact ⟨rfl, rfl⟩

/-- The first field can be read off in the same way. -/
theorem field_append_inj {α : Type} {sep : α} {xs ys a b : List α} (left : sep ∉ a) (right : sep ∉ b)
    (same : a ++ sep :: xs = b ++ sep :: ys) : a = b ∧ xs = ys := by
  induction a generalizing b with
  | nil =>
    cases b with
    | nil => exact ⟨rfl, (List.cons.inj same).2⟩
    | cons y b =>
      obtain ⟨rfl, _⟩ := List.cons.inj same
      exact absurd List.mem_cons_self right
  | cons x a ih =>
    cases b with
    | nil =>
      obtain ⟨rfl, _⟩ := List.cons.inj same
      exact absurd List.mem_cons_self left
    | cons y b =>
      obtain ⟨rfl, tail⟩ := List.cons.inj same
      obtain ⟨rfl, rest⟩ := ih (fun h => left (List.mem_cons_of_mem _ h)) (fun h => right (List.mem_cons_of_mem _ h)) tail
      exact ⟨rfl, rest⟩

theorem digits_no_separator {sep : Char} (notDigit : sep.isDigit = false) (n : Nat) : sep ∉ (toString n).toList := by
  intro member
  rw [Nat.toString_eq_repr, Nat.toList_repr] at member
  have := Nat.isDigit_of_mem_toDigits (by decide) (by decide) member
  simp [notDigit] at this

theorem toString_nat_inj {n m : Nat} (same : (toString n).toList = (toString m).toList) : n = m := by
  rw [Nat.toString_eq_repr, Nat.toString_eq_repr, Nat.toList_repr, Nat.toList_repr] at same
  have values := congrArg (fun cs => Nat.ofDigitChars 10 cs 0) same
  simpa using values

theorem toString_int_cases (i : Int) :
    (∃ n : Nat, i = n ∧ toString i = toString n) ∨ ∃ n : Nat, i = Int.negSucc n ∧ toString i = "-" ++ toString (n + 1) := by
  cases i with
  | ofNat n => exact .inl ⟨n, rfl, rfl⟩
  | negSucc n => exact .inr ⟨n, rfl, rfl⟩

theorem toString_int_inj {i j : Int} (same : (toString i).toList = (toString j).toList) : i = j := by
  have signed : ∀ n m : Nat, (toString n).toList ≠ ("-" ++ toString m).toList := by
    intro n m texts
    have minus : '-' ∈ (toString n).toList := by rw [texts, String.toList_append]; simp
    exact digits_no_separator rfl n minus
  rcases toString_int_cases i with ⟨n, rfl, left⟩ | ⟨n, rfl, left⟩ <;>
    rcases toString_int_cases j with ⟨m, rfl, right⟩ | ⟨m, rfl, right⟩ <;> rw [left, right] at same
  · rw [toString_nat_inj same]
  · exact absurd same (signed n (m + 1))
  · exact absurd same.symm (signed m (n + 1))
  · rw [String.toList_append, String.toList_append] at same
    have digits := toString_nat_inj (List.append_cancel_left same)
    rw [Nat.succ.inj digits]
