import Mathlib

/-!
Blocks in a list: a run of one marker between an opening and a closing one. A decomposition names every block and leaves
no marker outside of them.
-/

namespace Mlxforge

inductive Marker where
  | start | pad | stop
  deriving DecidableEq, Repr

/-- How each marker is spelled. -/
abbrev Markers (α : Type) := Marker → List α

namespace Markers

variable {α : Type} (m : Markers α)

def block (n : Nat) : List α := m .start ++ (List.replicate n (m .pad)).flatten ++ m .stop

/-- No marker occurs. -/
def Free (xs : List α) : Prop := ∀ k, ¬m k <:+: xs

/-- The blocks of a list, each by the length of its run. -/
inductive Blocks : List α → List Nat → Prop where
  | free {xs : List α} (free : m.Free xs) : Blocks xs []
  | block {before after : List α} {n : Nat} {counts : List Nat} (free : m.Free before) (rest : Blocks after counts) :
      Blocks (before ++ m.block n ++ after) (n :: counts)

/-- No marker lies across the border. -/
def Apart (xs ys : List α) : Prop := ∀ k a b, a ≠ [] → b ≠ [] → a <:+ xs → b <+: ys → a ++ b ≠ m k

variable {m} {xs ys zs : List α} {counts counts' : List Nat}

theorem Apart.mono {xs' ys' : List α} (apart : m.Apart xs ys) (left : xs' <:+ xs) (right : ys' <+: ys) : m.Apart xs' ys' :=
  fun k a b some_a some_b back front => apart k a b some_a some_b (back.trans left) (front.trans right)

theorem Free.append (left : m.Free xs) (right : m.Free ys) (apart : m.Apart xs ys) : m.Free (xs ++ ys) := by
  intro k inside
  obtain ⟨before, after, whole⟩ := inside
  rw [List.append_assoc] at whole
  obtain ⟨a, front, back⟩ | ⟨a, front, back⟩ := List.append_eq_append_iff.mp whole
  · -- the marker starts within `xs`
    obtain ⟨c, marker, rest⟩ | ⟨c, marker, rest⟩ := List.append_eq_append_iff.mp back
    · exact left k ⟨before, c, by rw [front, marker, List.append_assoc]⟩
    · by_cases none_left : a = []
      · exact right k ⟨[], after, by rw [rest, marker, none_left]; rfl⟩
      by_cases none_right : c = []
      · exact left k ⟨before, [], by rw [front, marker, none_right]; simp⟩
      · exact apart k a c none_left none_right ⟨before, front.symm⟩ ⟨after, rest.symm⟩ marker.symm
  · exact right k ⟨a, after, by rw [back, List.append_assoc]⟩

theorem free_nil (some_text : ∀ k, m k ≠ []) : m.Free [] := fun k inside => some_text k (List.infix_nil.mp inside)

theorem Blocks.append (left : m.Blocks xs counts) (right : m.Blocks ys counts') (apart : m.Apart xs ys) :
    m.Blocks (xs ++ ys) (counts ++ counts') := by
  induction left with
  | @free xs clean =>
    cases right with
    | free clean' => exact .free (clean.append clean' apart)
    | @block before after n counts clean' rest =>
      rw [List.append_assoc before, ← List.append_assoc xs, ← List.append_assoc (xs ++ before)]
      refine .block (clean.append clean' (apart.mono List.suffix_rfl ?_)) rest
      rw [List.append_assoc]
      exact List.prefix_append _ _
  | @block before after n counts clean rest ih =>
    rw [List.append_assoc]
    exact .block clean (ih (apart.mono (List.suffix_append _ _) List.prefix_rfl))

theorem Blocks.free_of_nil (none : m.Blocks xs []) : m.Free xs := by
  cases none with
  | free clean => exact clean

theorem blocks_block (some_text : ∀ k, m k ≠ []) (n : Nat) : m.Blocks (m.block n) [n] := by
  have alone := Blocks.block (n := n) (free_nil some_text) (.free (free_nil some_text))
  rwa [List.nil_append, List.append_nil] at alone

/-! ### Markers of one item -/

/-- Items that mark by themselves. -/
def items (id : Marker → α) : Markers α := fun k => [id k]

variable {id : Marker → α}

theorem free_items_iff : (items id).Free xs ↔ ∀ k, id k ∉ xs := by
  simp only [Free, items, List.singleton_infix_iff]

theorem apart_items : (items id).Apart xs ys := by
  intro k a b some_a some_b _ _ same
  have length := congrArg List.length same
  have left := List.length_pos_of_ne_nil some_a
  have right := List.length_pos_of_ne_nil some_b
  simp only [items, List.length_append, List.length_singleton] at length
  omega

theorem block_items (n : Nat) : (items id).block n = id .start :: (List.replicate n (id .pad) ++ [id .stop]) := by
  simp [block, items]

/-- As many of the inner markers as the blocks announce. -/
theorem Blocks.count_pad [DecidableEq α] (distinct : Function.Injective id) (blocks : (items id).Blocks xs counts) :
    xs.count (id .pad) = counts.sum := by
  induction blocks with
  | free clean => exact List.count_eq_zero_of_not_mem (free_items_iff.mp clean .pad)
  | @block before after n counts clean rest ih =>
    have absent := List.count_eq_zero_of_not_mem (free_items_iff.mp clean .pad)
    have opening : id .start ≠ id .pad := fun same => Marker.noConfusion (distinct same)
    have closing : id .stop ≠ id .pad := fun same => Marker.noConfusion (distinct same)
    rw [List.count_append, List.count_append, absent, ih, block_items, List.count_cons_of_ne opening, List.count_append,
      List.count_replicate_self, List.count_singleton, List.sum_cons]
    simp [closing]

end Markers

end Mlxforge
