import Mathlib.Data.List.AList
import Mathlib.Tactic

/-!
Finite maps with a measure on their values: what inserting and erasing do to the sum of the measure, and the entry with
the least measure.
-/

/-- A finite map, each key listed once. -/
abbrev Table (α β : Type) := AList fun _ : α => β

namespace Table

variable {α β : Type} [DecidableEq α] {t : Table α β} {a a' : α} {b b' : β} {w : β → Nat}

def total (w : β → Nat) (t : Table α β) : Nat := (t.entries.map fun e => w e.2).sum

theorem mem_iff : (⟨a, b⟩ : Sigma fun _ => β) ∈ t.entries ↔ t.lookup a = some b := AList.mem_lookup_iff.symm

theorem erase_of_notMem (absent : a ∉ t) : t.erase a = t := by
  apply AList.ext
  exact List.kerase_of_notMem_keys absent

theorem erase_perm (found : t.lookup a = some b) : t.entries.Perm (⟨a, b⟩ :: (t.erase a).entries) := by
  have here : a ∈ t := AList.lookup_isSome.mp (by rw [found]; rfl)
  obtain ⟨b', l₁, l₂, _, whole, rest⟩ := List.exists_of_kerase here
  have member : (⟨a, b'⟩ : Sigma fun _ => β) ∈ t.entries := by
    rw [whole]
    exact List.mem_append_right _ List.mem_cons_self
  obtain rfl : b' = b := Option.some.inj ((mem_iff.mp member).symm.trans found)
  change t.entries.Perm (_ :: t.entries.kerase a)
  rw [rest]
  nth_rewrite 1 [whole]
  exact List.perm_middle

theorem total_erase (found : t.lookup a = some b) : total w t = w b + total w (t.erase a) := by
  have sums := ((erase_perm found).map fun e => w e.2).sum_eq
  rwa [List.map_cons, List.sum_cons] at sums

theorem total_insert (a : α) (b : β) : total w (t.insert a b) = w b + total w (t.erase a) := by
  rw [total, AList.entries_insert, List.map_cons, List.sum_cons]
  rfl

/-- An update that leaves the measure alone. -/
theorem total_update (found : t.lookup a = some b) (same : w b' = w b) : total w (t.insert a b') = total w t := by
  rw [total_insert, total_erase found, same]

theorem lookup_insert_eq (t : Table α β) (a a' : α) (b : β) :
    (t.insert a b).lookup a' = if a' = a then some b else t.lookup a' := by
  split
  · rename_i same
    rw [same, AList.lookup_insert]
  · rename_i other
    exact AList.lookup_insert_ne other

theorem lookup_erase_eq (t : Table α β) (a a' : α) : (t.erase a).lookup a' = if a' = a then none else t.lookup a' := by
  split
  · rename_i same
    rw [same, AList.lookup_erase]
  · rename_i other
    exact AList.lookup_erase_ne other

/-- The size of an erased map, where the key was there. -/
theorem length_erase (found : t.lookup a = some b) : t.entries.length = (t.erase a).entries.length + 1 := by
  have lengths := (erase_perm found).length_eq
  rwa [List.length_cons] at lengths

/-- Insertion that keeps an entry that is there. -/
def emplace (t : Table α β) (a : α) (b : β) : Table α β := if a ∈ t then t else t.insert a b

theorem mem_emplace : a' ∈ emplace t a b ↔ a' = a ∨ a' ∈ t := by
  unfold emplace
  split
  · rename_i present
    constructor
    · exact .inr
    · rintro (rfl | member)
      · exact present
      · exact member
  · exact AList.mem_insert t

/-- What an emplaced table holds was there or is what was given. -/
theorem lookup_emplace (found : (emplace t a b).lookup a' = some b') : t.lookup a' = some b' ∨ a' = a ∧ b' = b := by
  unfold emplace at found
  split at found
  · exact .inl found
  · rw [lookup_insert_eq] at found
    split at found
    · rename_i same
      exact .inr ⟨same, (Option.some.inj found).symm⟩
    · exact .inl found

/-! ### The least entry -/

/-- A scan for the least measure; the earlier entry stays on a tie. -/
def least (m : β → Nat) (t : Table α β) : Option (Sigma fun _ : α => β) :=
  match t.entries with
  | [] => none
  | e :: rest => some (rest.foldl (fun least e => if m e.2 < m least.2 then e else least) e)

theorem least_spec {m : β → Nat} {e : Sigma fun _ : α => β} (found : t.least m = some e) :
    t.lookup e.1 = some e.2 ∧ ∀ a' b', t.lookup a' = some b' → m e.2 ≤ m b' := by
  have scan : ∀ (rest : List (Sigma fun _ : α => β)) (first : Sigma fun _ : α => β),
      rest.foldl (fun least e => if m e.2 < m least.2 then e else least) first ∈ first :: rest ∧
        ∀ e ∈ first :: rest, m (rest.foldl (fun least e => if m e.2 < m least.2 then e else least) first).2 ≤ m e.2 := by
    intro rest
    induction rest with
    | nil => exact fun first => ⟨List.mem_singleton_self _, by simp⟩
    | cons e rest ih =>
      intro first
      rw [List.foldl_cons]
      split
      · rename_i less
        obtain ⟨member, smallest⟩ := ih e
        refine ⟨List.mem_cons_of_mem _ member, fun e' member' => ?_⟩
        rcases List.mem_cons.mp member' with rfl | member'
        · exact (smallest e List.mem_cons_self).trans less.le
        · exact smallest e' member'
      · rename_i notLess
        obtain ⟨member, smallest⟩ := ih first
        refine ⟨?_, fun e' member' => ?_⟩
        · rcases List.mem_cons.mp member with eq | member
          · rw [eq]
            exact List.mem_cons_self
          · exact List.mem_cons_of_mem _ (List.mem_cons_of_mem _ member)
        · rcases List.mem_cons.mp member' with rfl | member'
          · exact smallest e' List.mem_cons_self
          · rcases List.mem_cons.mp member' with rfl | member'
            · exact (smallest first List.mem_cons_self).trans (Nat.not_lt.mp notLess)
            · exact smallest e' (List.mem_cons_of_mem _ member')
  unfold least at found
  split at found
  · cases found
  · rename_i first rest entries
    obtain rfl := Option.some.inj found
    obtain ⟨member, smallest⟩ := scan rest first
    rw [← entries] at member smallest
    exact ⟨mem_iff.mp member, fun a' b' found' => smallest ⟨a', b'⟩ (mem_iff.mpr found')⟩

omit [DecidableEq α] in
theorem least_isSome {m : β → Nat} (some : t.entries ≠ []) : ∃ e, t.least m = .some e := by
  unfold least
  split
  · contradiction
  · exact ⟨_, rfl⟩

end Table
