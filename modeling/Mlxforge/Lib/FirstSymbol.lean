import Mathlib.Computability.Language

/-!
Languages read one symbol at a time: what a word that starts with a given symbol must go on with, for single symbols,
words, sums, products and stars.
-/

namespace Language

open scoped Computability

variable {α : Type} {l m n : Language α} {p : α → Prop} {a : α} {w : List α}

/-- The one-symbol words with a property. -/
def symbols (p : α → Prop) : Language α := {x | ∃ a, p a ∧ x = [a]}

def word (w : List α) : Language α := {w}

theorem mem_symbols : w ∈ symbols p ↔ ∃ a, p a ∧ w = [a] := Iff.rfl

theorem mem_word {v : List α} : v ∈ word w ↔ v = w := Iff.rfl

@[simp] theorem nil_mem_mul : [] ∈ l * m ↔ [] ∈ l ∧ [] ∈ m := by
  rw [mem_mul]
  constructor
  · rintro ⟨x, hx, y, hy, eq⟩
    obtain ⟨rfl, rfl⟩ := List.append_eq_nil_iff.mp eq
    exact ⟨hx, hy⟩
  · exact fun ⟨hx, hy⟩ => ⟨[], hx, [], hy, rfl⟩

@[simp] theorem nil_mem_symbols : [] ∈ symbols p ↔ False := by simp [mem_symbols]

@[simp] theorem nil_mem_word : [] ∈ word w ↔ w = [] := eq_comm

@[simp] theorem word_nil : word ([] : List α) = 1 := rfl

@[simp] theorem cons_mem_symbols_mul : a :: w ∈ symbols p * m ↔ p a ∧ w ∈ m := by
  rw [mem_mul]
  constructor
  · rintro ⟨_, ⟨b, hb, rfl⟩, y, hy, eq⟩
    obtain ⟨rfl, rfl⟩ := List.cons.inj eq
    exact ⟨hb, hy⟩
  · exact fun ⟨ha, hw⟩ => ⟨[a], ⟨a, ha, rfl⟩, w, hw, rfl⟩

@[simp] theorem cons_mem_word_mul {b : α} {v : List α} : a :: w ∈ word (b :: v) * m ↔ a = b ∧ w ∈ word v * m := by
  rw [mem_mul, mem_mul]
  constructor
  · rintro ⟨_, rfl, y, hy, eq⟩
    obtain ⟨rfl, rfl⟩ := List.cons.inj eq
    exact ⟨rfl, v, rfl, y, hy, rfl⟩
  · rintro ⟨rfl, _, rfl, y, hy, rfl⟩
    exact ⟨_, rfl, y, hy, rfl⟩

@[simp] theorem cons_mem_add_mul : a :: w ∈ (l + m) * n ↔ a :: w ∈ l * n ∨ a :: w ∈ m * n := by
  rw [add_mul, mem_add]

/-- A product is read on in its first factor as long as that one may not be empty. -/
theorem cons_mem_mul_iff (some : [] ∉ l) : a :: w ∈ l * m ↔ ∃ u, a :: u ∈ l ∧ ∃ v ∈ m, w = u ++ v := by
  rw [mem_mul]
  constructor
  · rintro ⟨x, hx, v, hv, eq⟩
    cases x with
    | nil => exact absurd hx some
    | cons b u =>
      obtain ⟨rfl, rfl⟩ := List.cons.inj eq
      exact ⟨u, hx, v, hv, rfl⟩
  · rintro ⟨u, hu, v, hv, rfl⟩
    exact ⟨a :: u, hu, v, hv, rfl⟩

theorem cons_mem_mul_of {l' : Language α} (some : [] ∉ l) (h : ∀ u, a :: u ∈ l ↔ u ∈ l') : a :: w ∈ l * m ↔ w ∈ l' * m := by
  rw [cons_mem_mul_iff some, mem_mul]
  constructor
  · rintro ⟨u, hu, v, hv, rfl⟩
    exact ⟨u, (h u).mp hu, v, hv, rfl⟩
  · rintro ⟨u, hu, v, hv, rfl⟩
    exact ⟨u, (h u).mpr hu, v, hv, rfl⟩

theorem mem_kstar_mul : w ∈ l∗ * m ↔ w ∈ m ∨ w ∈ l * (l∗ * m) := by
  conv_lhs => rw [← one_add_self_mul_kstar_eq_kstar, add_mul, one_mul, mul_assoc]
  rfl

/-- A word of starred symbols is read off the front. -/
@[simp] theorem cons_mem_kstar_symbols_mul : a :: w ∈ (symbols p)∗ * m ↔ (p a ∧ w ∈ (symbols p)∗ * m) ∨ a :: w ∈ m := by
  rw [mem_kstar_mul, cons_mem_symbols_mul, or_comm]

theorem mem_kstar_mul_of_mem (h : w ∈ m) : w ∈ l∗ * m := mem_kstar_mul.mpr (.inl h)

theorem nonempty_mul (hl : ∃ x, x ∈ l) (hm : ∃ x, x ∈ m) : ∃ x, x ∈ l * m := by
  obtain ⟨x, hx⟩ := hl
  obtain ⟨y, hy⟩ := hm
  exact ⟨x ++ y, append_mem_mul hx hy⟩

theorem nonempty_word : ∃ x, x ∈ word w := ⟨w, rfl⟩

theorem nonempty_kstar : ∃ x, x ∈ l∗ := ⟨[], nil_mem_kstar l⟩

theorem nonempty_one : ∃ x, x ∈ (1 : Language α) := ⟨[], rfl⟩

theorem nonempty_symbols (h : p a) : ∃ x, x ∈ symbols p := ⟨[a], a, h, rfl⟩

theorem nonempty_left (h : ∃ x, x ∈ l) : ∃ x, x ∈ l + m := h.imp fun _ => .inl

theorem nonempty_pow (h : ∃ x, x ∈ l) (k : ℕ) : ∃ x, x ∈ l ^ k := by
  induction k with
  | zero => exact nonempty_one
  | succ k ih =>
    rw [pow_succ]
    exact nonempty_mul ih h

end Language
