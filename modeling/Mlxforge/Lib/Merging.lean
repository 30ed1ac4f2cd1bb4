import Mathlib.Data.List.Chain

/-!
Merging adjacent symbols by rank: one occurrence of the lowest-ranked pair at a time, or all its occurrences in one
left-to-right pass.
-/

namespace Mlxforge.Merging

theorem isChain_iff_adjacent {σ : Type*} {R : σ → σ → Prop} {symbols : List σ} :
    symbols.IsChain R ↔ ∀ {a b}, [a, b] <:+: symbols → R a b := by
  rw [List.isChain_iff_forall_rel_of_append_cons_cons]
  constructor
  · rintro chain a b ⟨l, r, rfl⟩
    exact chain (List.append_assoc l [a, b] r)
  · rintro pairs a b l r rfl
    exact pairs ⟨l, r, by simp⟩

variable {σ : Type*} (rank : σ → σ → Option Nat) (join : σ → σ → σ)

/-- The lowest rank of an adjacent pair. -/
def lowest : List σ → Option Nat
  | a :: b :: rest => Option.merge min (rank a b) (lowest (b :: rest))
  | _ => none

/-- Merge the leftmost pair of a rank. -/
def mergeFirst (r : Nat) : List σ → List σ
  | a :: b :: rest => if rank a b = some r then join a b :: rest else a :: mergeFirst r (b :: rest)
  | symbols => symbols

/-- Merge every pair of a rank, from the left, without overlap. -/
def mergeEach (r : Nat) : List σ → List σ
  | a :: b :: rest => if rank a b = some r then join a b :: mergeEach r rest else a :: mergeEach r (b :: rest)
  | symbols => symbols

/-- The rule for the pair, if there is one, does not rank below. -/
def NotBelow (r : Nat) (a b : σ) : Prop := ∀ k, rank a b = some k → r ≤ k

/-- No operand of a rule is the product of a rule of the same or a later rank. -/
def Ordered : Prop :=
  ∀ a b r c d k, rank a b = some r → rank c d = some k → r ≤ k → join c d ≠ a ∧ join c d ≠ b

variable {rank join}

theorem NotBelow.mono {r k : Nat} {a b : σ} (bound : NotBelow rank k a b) (le : r ≤ k) : NotBelow rank r a b :=
  fun _ rule => le.trans (bound _ rule)

theorem NotBelow.next {r : Nat} {a b : σ} (bound : NotBelow rank r a b) (other : rank a b ≠ some r) :
    NotBelow rank (r + 1) a b := by
  intro k rule
  have le := bound k rule
  have ne : k ≠ r := by
    intro same
    exact other (same ▸ rule)
  omega

theorem lowest_none {symbols : List σ} (none : lowest rank symbols = none) {a b : σ} (adjacent : [a, b] <:+: symbols) :
    rank a b = .none := by
  fun_induction lowest rank symbols with
  | case1 x y rest ih =>
    rw [Option.merge_eq_none_iff] at none
    rcases List.infix_cons_iff.mp adjacent with front | inside
    · obtain ⟨rfl, rfl⟩ : a = x ∧ b = y := by simpa using front
      exact none.1
    · exact ih none.2 inside
  | case2 symbols short =>
    obtain ⟨l, r, rfl⟩ := adjacent
    cases l with
    | nil => exact absurd rfl (short a b r)
    | cons x l => cases l <;> simp at short

/-- The lowest rank bounds every pair and is some pair's. -/
theorem lowest_spec {symbols : List σ} {r : Nat} (found : lowest rank symbols = some r) :
    symbols.IsChain (NotBelow rank r) ∧ ∃ a b, [a, b] <:+: symbols ∧ rank a b = some r := by
  fun_induction lowest rank symbols generalizing r with
  | case1 a b rest ih =>
    cases here : rank a b with
    | none =>
      have later : lowest rank (b :: rest) = some r := by simpa [here] using found
      obtain ⟨chain, x, y, inside, rule⟩ := ih later
      refine ⟨.cons_cons ?_ chain, x, y, inside.trans (List.suffix_cons a _).isInfix, rule⟩
      intro k same
      rw [here] at same
      cases same
    | some k =>
      cases later : lowest rank (b :: rest) with
      | none =>
        obtain rfl : k = r := by simpa [here, later] using found
        refine ⟨.cons_cons ?_ ?_, a, b, ⟨[], rest, rfl⟩, here⟩
        · intro j same
          rw [here] at same
          exact (Option.some.inj same).le
        · rw [isChain_iff_adjacent]
          intro x y inside j rule
          rw [lowest_none later inside] at rule
          cases rule
      | some j =>
        obtain rfl : min k j = r := by simpa [here, later] using found
        obtain ⟨chain, x, y, inside, rule⟩ := ih later
        refine ⟨.cons_cons ?_ (chain.imp fun _ _ bound => bound.mono (min_le_right k j)), ?_⟩
        · intro i same
          rw [here] at same
          exact Option.some.inj same ▸ min_le_left k j
        · rcases le_total k j with le | le
          · rw [min_eq_left le]
            exact ⟨a, b, ⟨[], rest, rfl⟩, here⟩
          · rw [min_eq_right le]
            exact ⟨x, y, inside.trans (List.suffix_cons a _).isInfix, rule⟩
  | case2 => cases found

theorem lowest_eq {symbols : List σ} {r : Nat} (chain : symbols.IsChain (NotBelow rank r)) {a b : σ}
    (adjacent : [a, b] <:+: symbols) (rule : rank a b = some r) : lowest rank symbols = some r := by
  cases found : lowest rank symbols with
  | none =>
    rw [lowest_none found adjacent] at rule
    cases rule
  | some k =>
    obtain ⟨bound, x, y, inside, least⟩ := lowest_spec found
    have below : k ≤ r := isChain_iff_adjacent.mp bound adjacent r rule
    have above : r ≤ k := isChain_iff_adjacent.mp chain inside k least
    rw [le_antisymm below above]

theorem mergeFirst_length {symbols : List σ} {r : Nat} {a b : σ} (adjacent : [a, b] <:+: symbols)
    (rule : rank a b = some r) : (mergeFirst rank join r symbols).length < symbols.length := by
  fun_induction mergeFirst rank join r symbols with
  | case1 x y rest _ => simp
  | case2 x y rest other ih =>
    rcases List.infix_cons_iff.mp adjacent with front | inside
    · obtain ⟨rfl, rfl⟩ : a = x ∧ b = y := by simpa using front
      exact absurd rule other
    · have shorter := ih inside
      simp only [List.length_cons] at shorter ⊢
      omega
  | case3 symbols short =>
    obtain ⟨l, r, rfl⟩ := adjacent
    cases l with
    | nil => exact absurd rfl (short a b r)
    | cons x l => cases l <;> simp at short

theorem mergeEach_length_le (r : Nat) (symbols : List σ) :
    (mergeEach rank join r symbols).length ≤ symbols.length := by
  fun_induction mergeEach rank join r symbols with
  | case1 a b rest _ ih => simp only [List.length_cons]; omega
  | case2 a b rest _ ih => simp only [List.length_cons] at ih ⊢; omega
  | case3 => exact le_rfl

theorem mergeEach_length {symbols : List σ} {r : Nat} {a b : σ} (adjacent : [a, b] <:+: symbols)
    (rule : rank a b = some r) : (mergeEach rank join r symbols).length < symbols.length := by
  fun_induction mergeEach rank join r symbols with
  | case1 x y rest _ _ =>
    have shorter : (mergeEach rank join r rest).length ≤ rest.length := mergeEach_length_le r rest
    simp only [List.length_cons]
    omega
  | case2 x y rest other ih =>
    rcases List.infix_cons_iff.mp adjacent with front | inside
    · obtain ⟨rfl, rfl⟩ : a = x ∧ b = y := by simpa using front
      exact absurd rule other
    · have shorter := ih inside
      simp only [List.length_cons] at shorter ⊢
      omega
  | case3 symbols short =>
    obtain ⟨l, r, rfl⟩ := adjacent
    cases l with
    | nil => exact absurd rfl (short a b r)
    | cons x l => cases l <;> simp at short

theorem mem_mergeEach {r : Nat} {s : σ} {symbols : List σ} (member : s ∈ mergeEach rank join r symbols) :
    s ∈ symbols ∨ ∃ a ∈ symbols, ∃ b ∈ symbols, s = join a b := by
  fun_induction mergeEach rank join r symbols with
  | case1 a b rest _ ih =>
    rcases List.mem_cons.mp member with rfl | later
    · exact .inr ⟨a, by simp, b, by simp, rfl⟩
    · obtain old | ⟨x, hx, y, hy, eq⟩ := ih later
      · exact .inl (.tail _ (.tail _ old))
      · exact .inr ⟨x, .tail _ (.tail _ hx), y, .tail _ (.tail _ hy), eq⟩
  | case2 a b rest _ ih =>
    rcases List.mem_cons.mp member with rfl | later
    · exact .inl List.mem_cons_self
    · obtain old | ⟨x, hx, y, hy, eq⟩ := ih later
      · exact .inl (.tail _ old)
      · exact .inr ⟨x, .tail _ hx, y, .tail _ hy, eq⟩
  | case3 => exact .inl member

section
variable {rank' : σ → σ → Option Nat} {symbols : List σ} (same : ∀ a ∈ symbols, ∀ b ∈ symbols, rank a b = rank' a b)

include same

theorem lowest_congr : lowest rank symbols = lowest rank' symbols := by
  fun_induction lowest rank symbols with
  | case1 a b rest ih =>
    rw [lowest, same a (by simp) b (by simp), ih fun x hx y hy => same x (.tail _ hx) y (.tail _ hy)]
  | case2 symbols short =>
    match symbols with
    | [] => rfl
    | [_] => rfl
    | a :: b :: rest => exact absurd rfl (short a b rest)

theorem mergeEach_congr (r : Nat) : mergeEach rank join r symbols = mergeEach rank' join r symbols := by
  fun_induction mergeEach rank join r symbols with
  | case1 a b rest rule ih =>
    rw [same a (by simp) b (by simp)] at rule
    rw [mergeEach, if_pos rule, ih fun x hx y hy => same x (.tail _ (.tail _ hx)) y (.tail _ (.tail _ hy))]
  | case2 a b rest other ih =>
    rw [same a (by simp) b (by simp)] at other
    rw [mergeEach, if_neg other, ih fun x hx y hy => same x (.tail _ hx) y (.tail _ hy)]
  | case3 symbols short =>
    match symbols with
    | [] => rfl
    | [_] => rfl
    | a :: b :: rest => exact absurd rfl (short a b rest)

end

variable (rank join)

/-- Merge, in each pass, every pair of the lowest rank, until no rule applies. -/
def byPasses (symbols : List σ) : List σ :=
  match _found : lowest rank symbols with
  | none => symbols
  | some r => byPasses (mergeEach rank join r symbols)
termination_by symbols.length
decreasing_by
  obtain ⟨_, a, b, adjacent, rule⟩ := lowest_spec _found
  exact mergeEach_length adjacent rule

/-- Merge the leftmost occurrence of the lowest-ranked pair, rank again, until no rule applies. -/
def oneByOne (symbols : List σ) : List σ :=
  match _found : lowest rank symbols with
  | none => symbols
  | some r => oneByOne (mergeFirst rank join r symbols)
termination_by symbols.length
decreasing_by
  obtain ⟨_, a, b, adjacent, rule⟩ := lowest_spec _found
  exact mergeFirst_length adjacent rule

variable {rank join}

theorem oneByOne_none {symbols : List σ} (none : lowest rank symbols = none) : oneByOne rank join symbols = symbols := by
  rw [oneByOne]
  split
  · rfl
  · rename_i found
    rw [none] at found
    cases found

theorem oneByOne_some {symbols : List σ} {r : Nat} (found : lowest rank symbols = some r) :
    oneByOne rank join symbols = oneByOne rank join (mergeFirst rank join r symbols) := by
  rw [oneByOne]
  split
  · rename_i none
    rw [none] at found
    cases found
  · rename_i found'
    rw [found] at found'
    rw [Option.some.inj found']

/-- Behind symbols with no pair of the rank, the pair at the front of the rest is the leftmost. -/
theorem mergeFirst_append {front rest : List σ} {r : Nat} {a b : σ}
    (clean : (front ++ [a]).IsChain (NotBelow rank (r + 1))) (rule : rank a b = some r) :
    mergeFirst rank join r (front ++ a :: b :: rest) = front ++ join a b :: rest := by
  induction front with
  | nil => exact if_pos rule
  | cons x front ih =>
    have other : ∀ y, [x, y] <:+: x :: front ++ [a] → rank x y ≠ some r := by
      intro y adjacent same
      have := isChain_iff_adjacent.mp clean adjacent r same
      omega
    have tail := ih clean.tail
    cases front with
    | nil =>
      rw [List.nil_append] at tail
      rw [List.cons_append, List.nil_append, mergeFirst, if_neg (other a ⟨[], [], rfl⟩), tail]
      rfl
    | cons y front =>
      rw [List.cons_append] at tail
      rw [List.cons_append, List.cons_append, mergeFirst, if_neg (other y ⟨[], front ++ [a], by simp⟩), tail]
      rfl

section
variable (ordered : Ordered rank join) {r : Nat} {a b : σ} (rule : rank a b = some r)

include ordered rule

/-- A fresh product forms no pair of its own rank or a lower one. -/
theorem Ordered.left (x : σ) : NotBelow rank (r + 1) x (join a b) := by
  intro k pair
  by_contra early
  exact (ordered x (join a b) k a b r pair rule (by omega)).2 rfl

theorem Ordered.right (y : σ) : NotBelow rank (r + 1) (join a b) y := by
  intro k pair
  by_contra early
  exact (ordered (join a b) y k a b r pair rule (by omega)).1 rfl

end

/-- One pass over what lies behind `front` is a run of single merges. -/
theorem oneByOne_pass (ordered : Ordered rank join) {r : Nat} (front rest : List σ)
    (clean : (front ++ rest.take 1).IsChain (NotBelow rank (r + 1)))
    (whole : (front ++ rest).IsChain (NotBelow rank r)) :
    oneByOne rank join (front ++ rest) = oneByOne rank join (front ++ mergeEach rank join r rest) := by
  fun_induction mergeEach rank join r rest generalizing front with
  | case1 a b rest rule ih =>
    have least : lowest rank (front ++ a :: b :: rest) = some r :=
      lowest_eq whole ⟨front, rest, by simp⟩ rule
    obtain ⟨chain, _, _⟩ := List.isChain_append.mp clean
    obtain ⟨_, behind, _⟩ := List.isChain_append.mp whole
    have fresh : (front ++ [join a b]).IsChain (NotBelow rank (r + 1)) :=
      List.isChain_append.mpr ⟨chain, .singleton _, fun x _ y here => by
        obtain rfl : join a b = y := by simpa using here
        exact ordered.left rule x⟩
    have next : ∀ y, NotBelow rank (r + 1) (join a b) y := ordered.right rule
    rw [oneByOne_some least, mergeFirst_append clean rule, List.append_cons front (join a b) rest,
      List.append_cons front (join a b) (mergeEach rank join r rest)]
    apply ih
    · refine List.isChain_append.mpr ⟨fresh, ?_, fun x here y _ => ?_⟩
      · cases rest with
        | nil => exact .nil
        | cons y rest => exact .singleton y
      · obtain rfl : join a b = x := by simpa using here
        exact next y
    · refine List.isChain_append.mpr ⟨fresh.imp fun _ _ bound => bound.mono (by omega), behind.tail.tail, ?_⟩
      intro x here y _
      obtain rfl : join a b = x := by simpa using here
      exact (next y).mono (by omega)
  | case2 a b rest other ih =>
    rw [List.append_cons, List.append_cons front a (mergeEach rank join r (b :: rest))]
    have pair : NotBelow rank (r + 1) a b :=
      (isChain_iff_adjacent.mp whole ⟨front, rest, by simp⟩).next other
    apply ih
    · refine List.isChain_append.mpr ⟨clean, .singleton b, fun x here y here' => ?_⟩
      obtain rfl : a = x := by simpa using here
      obtain rfl : b = y := by simpa using here'
      exact pair
    · rwa [List.append_assoc]
  | case3 => rfl

theorem byPasses_none {symbols : List σ} (none : lowest rank symbols = none) : byPasses rank join symbols = symbols := by
  rw [byPasses]
  split
  · rfl
  · rename_i found
    rw [none] at found
    cases found

theorem byPasses_some {symbols : List σ} {r : Nat} (found : lowest rank symbols = some r) :
    byPasses rank join symbols = byPasses rank join (mergeEach rank join r symbols) := by
  rw [byPasses]
  split
  · rename_i none
    rw [none] at found
    cases found
  · rename_i found'
    rw [found] at found'
    rw [Option.some.inj found']

/-- A pass of the lowest rank does not change where merging one by one ends. -/
theorem oneByOne_mergeEach (ordered : Ordered rank join) {symbols : List σ} {r : Nat}
    (found : lowest rank symbols = some r) :
    oneByOne rank join (mergeEach rank join r symbols) = oneByOne rank join symbols := by
  refine (oneByOne_pass ordered [] symbols ?_ (lowest_spec found).1).symm
  cases symbols with
  | nil => exact .nil
  | cons a rest => exact .singleton a

/-- Merging by passes ends where merging one by one does. -/
theorem byPasses_eq (ordered : Ordered rank join) (symbols : List σ) :
    byPasses rank join symbols = oneByOne rank join symbols := by
  fun_induction byPasses rank join symbols with
  | case1 symbols none => rw [oneByOne_none none]
  | case2 symbols r found ih => rw [ih, oneByOne_mergeEach ordered found]

end Mlxforge.Merging
