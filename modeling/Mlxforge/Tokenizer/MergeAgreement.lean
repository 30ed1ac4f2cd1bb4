import Mlxforge.Lib.Fields
import Mlxforge.Tokenizer.Spm
import Mlxforge.Tokenizer.BpeRoundTrip

/-!
Both tokenizers merge in passes; the reference algorithm merges one occurrence at a time and ranks again. They end with
the same symbols when no rule builds on the product of a later one.
-/

namespace Mlxforge

/-- No symbol holds the space that separates the operands of a listed rule. -/
def Spaceless (symbols : List Bytes) : Prop := ∀ s ∈ symbols, 0x20 ∉ s

/-- The rank of the rule for two operands, neither of which holds a space. -/
def ruleRank (keys : List Bytes) (a b : Bytes) : Option Nat :=
  if 0x20 ∈ a ∨ 0x20 ∈ b then none else (rankMerges keys).lookup (mergeKey a b)

/-- Merge the leftmost occurrence of the lowest-ranked pair, one at a time. -/
def referenceMerge (keys symbols : List Bytes) : List Bytes := Merging.oneByOne (ruleRank keys) (· ++ ·) symbols

/-- No operand of a rule is the product of a rule of the same or a later rank. -/
def OrderedMerges (keys : List Bytes) : Prop := Merging.Ordered (ruleRank keys) (· ++ ·)

/-! ### Ranks -/

theorem rankMerges_key {keys : List Bytes} {key : Bytes} {rank : Nat} (rule : (rankMerges keys).lookup key = some rank) :
    keys[rank]? = some key := by
  rw [rankMerges, lookup_emplaces, AList.lookup_empty, Option.none_or] at rule
  simpa using List.mem_zipIdx_iff_getElem?.mp (mem_of_lookup rule)

theorem mergeKey_inj {a b c d : Bytes} (ha : 0x20 ∉ a) (hc : 0x20 ∉ c) (same : mergeKey a b = mergeKey c d) :
    a = c ∧ b = d := field_append_inj ha hc same

/-- Listed rules in order: it is enough to look at the operands and products. -/
theorem orderedMerges_of_rules (rules : List (Bytes × Bytes)) (clean : ∀ p ∈ rules, 0x20 ∉ p.1)
    (later : ∀ j < rules.length, ∀ i ≤ j, ∀ p ∈ rules[i]?, ∀ q ∈ rules[j]?, q.1 ++ q.2 ≠ p.1 ∧ q.1 ++ q.2 ≠ p.2) :
    OrderedMerges (rules.map fun p => mergeKey p.1 p.2) := by
  have operands : ∀ {a b : Bytes} {r : Nat}, ruleRank (rules.map fun p => mergeKey p.1 p.2) a b = some r →
      rules[r]? = some (a, b) := by
    intro a b r rule
    unfold ruleRank at rule
    split at rule
    · cases rule
    · rename_i spaceless
      obtain ⟨p, listed, key⟩ := Option.map_eq_some_iff.mp (List.getElem?_map ▸ rankMerges_key rule)
      obtain ⟨left, right⟩ := mergeKey_inj (clean p (List.mem_of_getElem? listed)) (fun m => spaceless (.inl m)) key
      rw [listed, ← left, ← right]
  intro a b r c d k rule rule' le
  have inside := (List.getElem?_eq_some_iff.mp (operands rule')).1
  exact later k inside r le (a, b) (operands rule) (c, d) (operands rule')

theorem ruleRank_of_spaceless {keys symbols : List Bytes} (spaceless : Spaceless symbols) :
    ∀ a ∈ symbols, ∀ b ∈ symbols, (rankMerges keys).lookup (mergeKey a b) = ruleRank keys a b := by
  intro a ha b hb
  rw [ruleRank, if_neg]
  rintro (space | space)
  · exact spaceless a ha space
  · exact spaceless b hb space

theorem Spaceless.mergeEach {rank : Bytes → Bytes → Option Nat} {symbols : List Bytes} (spaceless : Spaceless symbols)
    (r : Nat) : Spaceless (Merging.mergeEach rank (· ++ ·) r symbols) := by
  intro s member
  obtain old | ⟨a, ha, b, hb, rfl⟩ := Merging.mem_mergeEach member
  · exact spaceless s old
  · simp [spaceless a ha, spaceless b hb]

/-! ### The byte-level tokenizer -/

namespace BpeTokenizer

variable {t : BpeTokenizer}

def pairRank (t : BpeTokenizer) (a b : Bytes) : Option Nat := t.mergeRanks.lookup (mergeKey a b)

theorem bestPair_rank (best : Option (Nat × Bytes × Bytes)) (symbols : List Bytes) :
    (t.bestPair best symbols).map (·.1) = Option.merge min (best.map (·.1)) (Merging.lowest t.pairRank symbols) := by
  induction symbols generalizing best with
  | nil => simp [bestPair, Merging.lowest]
  | cons a rest ih =>
    cases rest with
    | nil => simp [bestPair, Merging.lowest]
    | cons b rest =>
      rw [bestPair, ih, Merging.lowest, pairRank]
      cases t.mergeRanks.lookup (mergeKey a b) with
      | none => simp
      | some rank =>
        cases best with
        | none => simp
        | some p =>
          cases Merging.lowest t.pairRank (b :: rest) <;> simp <;> grind

/-- Among spaceless symbols a rank is one pair's. -/
theorem mergePair_eq {keys : List Bytes} (table : t.mergeRanks = rankMerges keys) {a b : Bytes} {rank : Nat}
    (rule : t.pairRank a b = some rank) (clean : 0x20 ∉ a) {symbols : List Bytes} (spaceless : Spaceless symbols) :
    mergePair a b symbols = Merging.mergeEach t.pairRank (· ++ ·) rank symbols := by
  fun_induction mergePair a b symbols with
  | case1 x y rest same ih =>
    obtain ⟨rfl, rfl⟩ := same
    rw [Merging.mergeEach, if_pos rule, ih fun s member => spaceless s (.tail _ (.tail _ member))]
  | case2 x y rest differs ih =>
    rw [Merging.mergeEach, if_neg, ih fun s member => spaceless s (.tail _ member)]
    intro rule'
    rw [pairRank, table] at rule rule'
    have one := (rankMerges_key rule').symm.trans (rankMerges_key rule)
    exact differs (mergeKey_inj (spaceless x (by simp)) clean (Option.some.inj one))
  | case3 symbols short =>
    cases symbols with
    | nil => rfl
    | cons a tail =>
      cases tail with
      | nil => rfl
      | cons b rest => exact absurd rfl (short a b rest)

theorem mergeLoop_eq_byPasses {keys : List Bytes} (table : t.mergeRanks = rankMerges keys) {symbols : List Bytes}
    (spaceless : Spaceless symbols) : t.mergeLoop symbols = Merging.byPasses (ruleRank keys) (· ++ ·) symbols := by
  have ranks : ∀ symbols, Spaceless symbols → ∀ a ∈ symbols, ∀ b ∈ symbols, t.pairRank a b = ruleRank keys a b := by
    intro symbols spaceless a ha b hb
    rw [pairRank, table, ruleRank_of_spaceless spaceless a ha b hb]
  fun_induction mergeLoop t symbols with
  | case1 symbols none =>
    have rank := bestPair_rank (t := t) .none symbols
    rw [none, Option.map_none, Option.merge_none_left, Merging.lowest_congr (ranks _ spaceless)] at rank
    rw [Merging.byPasses_none rank.symm]
  | case2 symbols rank a b found ih =>
    have least := bestPair_rank (t := t) .none symbols
    rw [found, Option.map_some, Option.map_none, Option.merge_none_left, Merging.lowest_congr (ranks _ spaceless)] at least
    obtain none_some | ⟨adjacent, rule⟩ := bestPair_spec found
    · cases none_some
    have clean : 0x20 ∉ a := spaceless a (adjacent.subset (by simp))
    rw [mergePair_eq table rule clean spaceless] at ih ⊢
    rw [ih (spaceless.mergeEach rank), Merging.byPasses_some least.symm, Merging.mergeEach_congr (ranks _ spaceless)]

theorem mergeLoop_reference {keys : List Bytes} (table : t.mergeRanks = rankMerges keys) (ordered : OrderedMerges keys)
    {symbols : List Bytes} (spaceless : Spaceless symbols) : t.mergeLoop symbols = referenceMerge keys symbols := by
  rw [mergeLoop_eq_byPasses table spaceless, Merging.byPasses_eq ordered, referenceMerge]

/-- One turn of the loop; without a rule it changes nothing. -/
def mergeTurn (t : BpeTokenizer) (symbols : List Bytes) : List Bytes :=
  match t.bestPair none symbols with
  | none => symbols
  | some (_, a, b) => mergePair a b symbols

/-- The loop breaks after at most as many turns as there are symbols. -/
theorem mergeLoop_turns (t : BpeTokenizer) (symbols : List Bytes) : ∃ n ≤ symbols.length,
    t.mergeLoop symbols = t.mergeTurn^[n] symbols ∧ t.bestPair none (t.mergeLoop symbols) = none := by
  fun_induction mergeLoop t symbols with
  | case1 symbols none => exact ⟨0, Nat.zero_le _, rfl, none⟩
  | case2 symbols rank a b found ih =>
    obtain ⟨n, le, eq, last⟩ := ih
    obtain none_some | ⟨adjacent, _⟩ := bestPair_spec found
    · cases none_some
    have shorter := mergePair_length_lt adjacent
    have turn : t.mergeTurn symbols = mergePair a b symbols := by
      rw [mergeTurn, found]
    refine ⟨n + 1, by omega, ?_, last⟩
    rw [Function.iterate_succ_apply, turn, eq]

/-- The pieces that `encode_plain` merges hold no space. -/
theorem spaceless_splitSymbols (piece : Bytes) : Spaceless (splitSymbols (image piece)) := by
  rw [splitSymbols_image]
  intro s member
  obtain ⟨b, _, rfl⟩ := List.mem_map.mp member
  rw [← image_singleton]
  exact space_not_mem_image [b]

end BpeTokenizer

/-! ### The SentencePiece-style tokenizer -/

namespace SpmBpeTokenizer

variable {t : SpmBpeTokenizer}

theorem mergeLoop_eq_byPasses {keys : List Bytes} (table : t.mergeRanks = rankMerges keys) {symbols : List Bytes}
    (spaceless : Spaceless symbols) : t.mergeLoop symbols = Merging.byPasses (ruleRank keys) (· ++ ·) symbols := by
  have ranks : ∀ symbols, Spaceless symbols → ∀ a ∈ symbols, ∀ b ∈ symbols, t.pairRank a b = ruleRank keys a b := by
    intro symbols spaceless a ha b hb
    rw [pairRank, table, ruleRank_of_spaceless spaceless a ha b hb]
  fun_induction mergeLoop t symbols with
  | case1 symbols none =>
    rw [bestRank_eq, Option.merge_none_left, Merging.lowest_congr (ranks _ spaceless)] at none
    rw [Merging.byPasses_none none]
  | case2 symbols rank found ih =>
    rw [bestRank_eq, Option.merge_none_left, Merging.lowest_congr (ranks _ spaceless)] at found
    rw [mergeRank_eq] at ih ⊢
    rw [ih (spaceless.mergeEach rank), Merging.byPasses_some found, Merging.mergeEach_congr (ranks _ spaceless)]

theorem mergeLoop_reference {keys : List Bytes} (table : t.mergeRanks = rankMerges keys) (ordered : OrderedMerges keys)
    {symbols : List Bytes} (spaceless : Spaceless symbols) : t.mergeLoop symbols = referenceMerge keys symbols := by
  rw [mergeLoop_eq_byPasses table spaceless, Merging.byPasses_eq ordered, referenceMerge]

/-- One turn of the loop; without a rule it changes nothing. -/
def mergeTurn (t : SpmBpeTokenizer) (symbols : List Bytes) : List Bytes :=
  match t.bestRank none symbols with
  | none => symbols
  | some rank => t.mergeRank rank symbols

theorem mergeLoop_turns (t : SpmBpeTokenizer) (symbols : List Bytes) : ∃ n ≤ symbols.length,
    t.mergeLoop symbols = t.mergeTurn^[n] symbols ∧ t.bestRank none (t.mergeLoop symbols) = none := by
  fun_induction mergeLoop t symbols with
  | case1 symbols none => exact ⟨0, Nat.zero_le _, rfl, none⟩
  | case2 symbols rank found ih =>
    obtain ⟨n, le, eq, last⟩ := ih
    have turn : t.mergeTurn symbols = t.mergeRank rank symbols := by
      rw [mergeTurn, found]
    rw [bestRank_eq, Option.merge_none_left] at found
    obtain ⟨_, a, b, adjacent, rule⟩ := Merging.lowest_spec found
    have shorter : (t.mergeRank rank symbols).length < symbols.length := by
      rw [mergeRank_eq]
      exact Merging.mergeEach_length adjacent rule
    refine ⟨n + 1, by omega, ?_, last⟩
    rw [Function.iterate_succ_apply, turn, eq]

theorem utf8Chars_flatten (s : Bytes) : (utf8Chars s).flatten = s := by
  fun_induction utf8Chars s with
  | case1 => rfl
  | case2 c rest ih => rw [List.flatten_cons, ih, List.take_append_drop]

theorem space_not_mem_normalized (segment : Bytes) : 0x20 ∉ normalized segment := by
  intro space
  obtain ⟨b, _, space⟩ := List.mem_flatMap.mp space
  split at space
  · simp [metaspace] at space
  · rename_i other
    exact other (List.mem_singleton.mp space).symm

/-- The symbols that `encode_plain` merges hold no space. -/
theorem spaceless_utf8Chars (segment : Bytes) : Spaceless (utf8Chars (normalized segment)) := by
  intro s member space
  have inside := (List.infix_of_mem_flatten member).subset space
  rw [utf8Chars_flatten] at inside
  exact space_not_mem_normalized segment inside

end SpmBpeTokenizer

/-! ### Both -/

/-- Whatever the symbols and the listed merges, both loops stop and end with the reference's symbols. -/
theorem merging_agrees (keys : List Bytes) (ordered : OrderedMerges keys) (symbols : List Bytes)
    (spaceless : Spaceless symbols) :
    (∀ t : BpeTokenizer, t.mergeRanks = rankMerges keys →
      t.mergeLoop symbols = referenceMerge keys symbols ∧
        ∃ n ≤ symbols.length, t.mergeLoop symbols = t.mergeTurn^[n] symbols ∧
          t.bestPair none (t.mergeLoop symbols) = none) ∧
    (∀ t : SpmBpeTokenizer, t.mergeRanks = rankMerges keys →
      t.mergeLoop symbols = referenceMerge keys symbols ∧
        ∃ n ≤ symbols.length, t.mergeLoop symbols = t.mergeTurn^[n] symbols ∧
          t.bestRank none (t.mergeLoop symbols) = none) := by
  constructor
  · intro t table
    exact ⟨BpeTokenizer.mergeLoop_reference table ordered spaceless, t.mergeLoop_turns symbols⟩
  · intro t table
    exact ⟨SpmBpeTokenizer.mergeLoop_reference table ordered spaceless, t.mergeLoop_turns symbols⟩

/-- `a a` before `aa a`. -/
def doublingRules : List (Bytes × Bytes) := [(.ofAscii "a", .ofAscii "a"), (.ofAscii "aa", .ofAscii "a")]

def doublingKeys : List Bytes := doublingRules.map fun p => mergeKey p.1 p.2

theorem merging_agrees_doubling :
    BpeTokenizer.mergeLoop { mergeRanks := rankMerges doublingKeys } (List.replicate 5 (.ofAscii "a")) =
        referenceMerge doublingKeys (List.replicate 5 (.ofAscii "a")) ∧
      SpmBpeTokenizer.mergeLoop ⟨∅, [], rankMerges doublingKeys, [], fun _ => -1, [], -1, [], []⟩
          (List.replicate 5 (.ofAscii "a")) =
        referenceMerge doublingKeys (List.replicate 5 (.ofAscii "a")) := by
  have agrees := merging_agrees doublingKeys (orderedMerges_of_rules doublingRules (by decide) (by decide))
    (List.replicate 5 (.ofAscii "a")) (by unfold Spaceless; decide)
  exact ⟨(agrees.1 _ rfl).1, (agrees.2 _ rfl).1⟩

end Mlxforge
