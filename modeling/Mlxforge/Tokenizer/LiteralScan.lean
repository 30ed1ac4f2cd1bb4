import Mlxforge.Tokenizer.BpeLoaders

/-!
The outer loop of `encode`, which both tokenizers share: the text is scanned for the literals of the added tokens, and
what lies between them is encoded as plain text.
-/

namespace Mlxforge

structure LiteralTable where
  /-- A cheap filter: only a non-empty literal adds its first byte. -/
  firstBytes : List UInt8
  /-- Longest first. -/
  literals : List (Bytes × Int)

namespace LiteralTable

variable (table : LiteralTable)

/-- The first literal at the front. -/
def literalAt (rest : Bytes) : Option (Bytes × Int) :=
  if rest.head?.any table.firstBytes.contains then table.literals.find? fun p => p.1.isPrefixOf rest else none

variable (encodePlain : Bytes → List Int)

/-! ### The loop -/

/-- The variables of the loop. -/
structure Scan where
  i : Nat := 0
  runStart : Nat := 0
  out : List Int := []

/-- One turn of the loop. -/
def turn (text : Bytes) (s : Scan) : Scan :=
  match table.literalAt (text.drop s.i) with
  | some (lit, id) =>
    { i := s.i + lit.length
      runStart := s.i + lit.length
      out := s.out ++ encodePlain ((text.drop s.runStart).take (s.i - s.runStart)) ++ [id] }
  | none => { s with i := s.i + 1 }

/-- The loop comes to its end, with these ids after the last run. -/
inductive Ends (text : Bytes) : Scan → List Int → Prop where
  | done {s : Scan} (all : text.length ≤ s.i) : Ends text s (s.out ++ encodePlain (text.drop s.runStart))
  | turn {s : Scan} {ids : List Int} (more : s.i < text.length) (rest : Ends text (table.turn encodePlain text s) ids) :
      Ends text s ids

/-- The loop over what is left of the text; `run` is the text since the last literal. There is no result where an
empty literal matches over and over. -/
def scan (run rest : Bytes) : Option (List Int) :=
  match rest with
  | [] => some (encodePlain run)
  | c :: rest =>
    match table.literalAt (c :: rest) with
    | none => scan (run ++ [c]) rest
    | some (lit, id) =>
      if lit = [] then none
      else do
        let ids ← scan [] ((c :: rest).drop lit.length)
        return encodePlain run ++ id :: ids
termination_by rest.length
decreasing_by
  · simp
  · have := List.length_pos_of_ne_nil ‹_›
    simp only [List.length_drop, List.length_cons]
    omega

variable {table encodePlain}

theorem scan_byte {run rest : Bytes} {c : UInt8} (none_here : table.literalAt (c :: rest) = none) :
    table.scan encodePlain run (c :: rest) = table.scan encodePlain (run ++ [c]) rest := by
  rw [scan, none_here]

theorem scan_endless {run rest : Bytes} {c : UInt8} {id : Int} (found : table.literalAt (c :: rest) = some ([], id)) :
    table.scan encodePlain run (c :: rest) = none := by
  rw [scan, found]
  exact if_pos rfl

theorem scan_literal {run rest lit : Bytes} {c : UInt8} {id : Int}
    (found : table.literalAt (c :: rest) = some (lit, id)) (some_lit : lit ≠ []) :
    table.scan encodePlain run (c :: rest) =
      (table.scan encodePlain [] ((c :: rest).drop lit.length)).map fun ids => encodePlain run ++ id :: ids := by
  rw [scan, found]
  show (if lit = [] then none else _) = _
  rw [if_neg some_lit, Option.map_eq_bind]
  rfl

theorem literalAt_front {rest lit : Bytes} {id : Int} (found : table.literalAt rest = some (lit, id)) :
    lit <+: rest ∧ (lit, id) ∈ table.literals := by
  unfold literalAt at found
  split at found
  · have front : lit.isPrefixOf rest = true :=
      List.find?_some (p := fun p : Bytes × Int => p.1.isPrefixOf rest) found
    exact ⟨List.isPrefixOf_iff_prefix.mp front, List.mem_of_find?_eq_some found⟩
  · cases found

/-- Without a literal the whole text is plain. -/
theorem scan_plain (run rest : Bytes) (clean : ∀ p ∈ table.literals, ¬p.1 <:+: rest) :
    table.scan encodePlain run rest = some (encodePlain (run ++ rest)) := by
  induction rest generalizing run with
  | nil => rw [scan, List.append_nil]
  | cons c rest ih =>
    have none_here : table.literalAt (c :: rest) = none := by
      cases found : table.literalAt (c :: rest) with
      | none => rfl
      | some p =>
        obtain ⟨front, member⟩ := literalAt_front found
        exact absurd front.isInfix (clean p member)
    have later : ∀ p ∈ table.literals, ¬p.1 <:+: rest := by
      intro p member inside
      exact clean p member (inside.trans (List.suffix_cons c rest).isInfix)
    rw [scan_byte none_here, ih (run ++ [c]) later, List.append_assoc]
    rfl

/-- The state of the loop before `rest`, with `run` since the last literal. -/
theorem Scan.split {text before run rest : Bytes} (whole : text = before ++ run ++ rest) :
    text.drop (before.length + run.length) = rest ∧ text.drop before.length = run ++ rest := by
  subst whole
  rw [← List.length_append, List.drop_left, List.append_assoc, List.drop_left]
  exact ⟨rfl, rfl⟩

/-- What the recursion computes, the loop ends with. -/
theorem ends_of_scan {text before run rest : Bytes} {out ids : List Int} (whole : text = before ++ run ++ rest)
    (scanned : table.scan encodePlain run rest = some ids) :
    Ends table encodePlain text ⟨before.length + run.length, before.length, out⟩ (out ++ ids) := by
  fun_induction scan table encodePlain run rest generalizing before out ids with
  | case1 run =>
    obtain rfl := Option.some.inj scanned
    have last : text.drop before.length = run := by
      rw [(Scan.split whole).2, List.append_nil]
    rw [← last]
    refine .done ?_
    rw [whole]
    simp
  | case2 run c rest none ih =>
    obtain ⟨here, _⟩ := Scan.split whole
    refine .turn (by rw [whole]; simp) ?_
    have stepped : table.turn encodePlain text ⟨before.length + run.length, before.length, out⟩ =
        ⟨before.length + (run ++ [c]).length, before.length, out⟩ := by
      rw [turn]
      simp only [here, none, List.length_append, List.length_singleton]
      rw [Nat.add_assoc]
    rw [stepped]
    exact ih (by rw [whole]; simp) scanned
  | case3 => cases scanned
  | case4 run c rest lit id found some_lit ih =>
    obtain ⟨here, since⟩ := Scan.split whole
    obtain ⟨⟨tail, front⟩, _⟩ := literalAt_front found
    obtain ⟨later, inner, eq⟩ := Option.bind_eq_some_iff.mp scanned
    obtain rfl := Option.some.inj eq
    refine .turn (by rw [whole]; simp) ?_
    have stepped : table.turn encodePlain text ⟨before.length + run.length, before.length, out⟩ =
        ⟨(before ++ run ++ lit).length, (before ++ run ++ lit).length, out ++ encodePlain run ++ [id]⟩ := by
      rw [turn]
      simp only [here, found, since, Nat.add_sub_cancel_left, List.take_left, List.length_append]
    have tail_eq : (c :: rest).drop lit.length = tail := by
      rw [← front, List.drop_left]
    rw [stepped]
    have behind : text = before ++ run ++ lit ++ [] ++ (c :: rest).drop lit.length := by
      rw [whole, tail_eq, ← front]
      simp
    have next := @ih (before ++ run ++ lit) (out ++ encodePlain run ++ [id]) later behind inner
    rwa [show out ++ (encodePlain run ++ id :: later) = out ++ encodePlain run ++ [id] ++ later by simp]

/-- Where the recursion has no result, the loop does not end. -/
theorem scan_of_ends {text : Bytes} {s : Scan} {ids : List Int} (ended : Ends table encodePlain text s ids)
    {before run rest : Bytes} (whole : text = before ++ run ++ rest) (place : s.i = before.length + run.length)
    (start : s.runStart = before.length) :
    ∃ later, table.scan encodePlain run rest = some later ∧ ids = s.out ++ later := by
  induction ended generalizing before run rest with
  | @done s all =>
    obtain ⟨_, since⟩ := Scan.split whole
    have last : rest = [] := by
      rw [whole, place] at all
      simpa using all
    subst last
    refine ⟨encodePlain run, by rw [scan], ?_⟩
    rw [start, since, List.append_nil]
  | @turn s ids more ended ih =>
    obtain ⟨here, since⟩ := Scan.split whole
    cases rest with
    | nil =>
      rw [whole, place] at more
      simp at more
    | cons c rest =>
      cases found : table.literalAt (c :: rest) with
      | none =>
        have stepped : table.turn encodePlain text s = ⟨s.i + 1, s.runStart, s.out⟩ := by
          rw [turn, place, here, found]
        obtain ⟨later, scanned, eq⟩ := @ih before (run ++ [c]) rest (by rw [whole]; simp) (by rw [stepped]; simp [place]; omega) (by rw [stepped]; exact start)
        exact ⟨later, (scan_byte found).trans scanned, by rw [eq, stepped]⟩
      | some p =>
        obtain ⟨lit, id⟩ := p
        obtain ⟨⟨tail, front⟩, _⟩ := literalAt_front found
        have tail_eq : (c :: rest).drop lit.length = tail := by
          rw [← front, List.drop_left]
        have stepped : table.turn encodePlain text s =
            ⟨s.i + lit.length, s.i + lit.length, s.out ++ encodePlain run ++ [id]⟩ := by
          rw [turn, place, start, here, found, since, Nat.add_sub_cancel_left, List.take_left]
        obtain ⟨later, scanned, eq⟩ := @ih (before ++ run ++ lit) [] tail
          (by rw [whole, ← front]; simp) (by rw [stepped]; simp [place, Nat.add_assoc]) (by rw [stepped]; simp [place, Nat.add_assoc])
        rw [← tail_eq] at scanned
        by_cases empty : lit = []
        · -- the turn leaves everything after the run as it was
          subst empty
          rw [List.length_nil, List.drop_zero, scan_endless found] at scanned
          cases scanned
        · refine ⟨encodePlain run ++ id :: later, ?_, by rw [eq, stepped]; simp⟩
          rw [scan_literal found empty, scanned]
          rfl

/-- The loop ends exactly where the recursion has a result, and with that result. -/
theorem ends_iff {text : Bytes} {ids : List Int} :
    Ends table encodePlain text {} ids ↔ table.scan encodePlain [] text = some ids := by
  constructor
  · intro ended
    have start : text = [] ++ [] ++ text := rfl
    obtain ⟨later, scanned, rfl⟩ := scan_of_ends ended start rfl rfl
    exact scanned
  · intro scanned
    exact @ends_of_scan table encodePlain text [] [] text [] ids rfl scanned

end LiteralTable

end Mlxforge
