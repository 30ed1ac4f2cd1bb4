import Mathlib.Data.List.Basic
import Mathlib.Data.List.Range
import Mathlib.Data.List.TakeWhile

/-!
Regular expressions with ordered alternatives and greedy repetition, matched by backtracking: the lengths that match at
the front of a text, in the order in which they are tried.
-/

namespace Mlxforge

inductive Regex (σ : Type) where
  | empty
  /-- One symbol of a class. -/
  | one (p : σ → Bool)
  | seq (r s : Regex σ)
  | alt (r s : Regex σ)
  /-- `r{least,most}`, as often as possible; without `most` there is no upper bound. -/
  | rep (r : Regex σ) (least : Nat) (most : Option Nat)
  /-- `(?!r)` -/
  | notAhead (r : Regex σ)

namespace Regex

variable {σ : Type}

/-- `m` and then, at what it leaves, `m'`. -/
def andThen (m m' : List σ → List Nat) (input : List σ) : List Nat :=
  (m input).flatMap fun n => (m' (input.drop n)).map (n + ·)

def times (m : List σ → List Nat) : Nat → List σ → List Nat
  | 0 => fun _ => [0]
  | k + 1 => andThen m (times m k)

/-- Up to `k` times, more being better; a turn that matches nothing is not taken. -/
def upTo (m : List σ → List Nat) : Nat → List σ → List Nat
  | 0 => fun _ => [0]
  | k + 1 => fun input => andThen (fun input => (m input).filter (0 < ·)) (upTo m k) input ++ [0]

def lengths : Regex σ → List σ → List Nat
  | empty, _ => [0]
  | one p, input => if input.head?.any p then [1] else []
  | seq r s, input => andThen r.lengths s.lengths input
  | alt r s, input => r.lengths input ++ s.lengths input
  | rep r least most, input =>
    andThen (times r.lengths least) (upTo r.lengths ((most.getD (least + input.length)) - least)) input
  | notAhead r, input => if r.lengths input = [] then [0] else []

/-- The length of the match that backtracking finds. -/
def first (r : Regex σ) (input : List σ) : Option Nat := (r.lengths input).head?

def opt (r : Regex σ) : Regex σ := rep r 0 (some 1)

def star (r : Regex σ) : Regex σ := rep r 0 none

def plus (r : Regex σ) : Regex σ := rep r 1 none

/-- The symbols one after the other, each of its class. -/
def word : List (σ → Bool) → Regex σ
  | [] => empty
  | p :: ps => seq (one p) (word ps)

/-! ### The first match -/

variable {r s : Regex σ} {p : σ → Bool} {input : List σ}

theorem first_alt : (alt r s).first input = (r.first input).or (s.first input) := List.head?_append

theorem first_seq : (seq r s).first input =
    (r.lengths input).findSome? fun n => (s.first (input.drop n)).map (n + ·) := by
  rw [first, lengths, andThen, List.head?_flatMap]
  congr 1
  funext n
  rw [List.head?_map, first]

/-! ### Repetition of a class -/

/-- The numbers below `k`, from the top. -/
def downFrom (k : Nat) : List Nat := (List.range k).reverse

@[simp] theorem downFrom_zero : downFrom 0 = [] := rfl

theorem downFrom_succ (k : Nat) : downFrom (k + 1) = k :: downFrom k := by
  rw [downFrom, List.range_succ, List.reverse_append]
  rfl

theorem mem_downFrom {k n : Nat} : n ∈ downFrom k ↔ n < k := by
  rw [downFrom, List.mem_reverse, List.mem_range]

theorem map_downFrom_succ (k : Nat) : (downFrom k).map (1 + ·) ++ [0] = downFrom (k + 1) := by
  induction k with
  | zero => rfl
  | succ k ih =>
    rw [downFrom_succ, List.map_cons, List.cons_append, ih, Nat.add_comm 1 k, ← downFrom_succ]

theorem andThen_one (m : List σ → List Nat) (c : σ) (rest : List σ) :
    andThen (one p).lengths m (c :: rest) = if p c then (m rest).map (1 + ·) else [] := by
  rw [andThen, lengths, List.head?_cons, Option.any_some]
  split <;> simp

theorem filter_one (input : List σ) : ((one p).lengths input).filter (0 < ·) = (one p).lengths input := by
  rw [lengths]
  split <;> rfl

theorem upTo_one (k : Nat) (input : List σ) :
    upTo (one p).lengths k input = downFrom (min k (input.takeWhile p).length + 1) := by
  induction k generalizing input with
  | zero => rw [upTo, Nat.zero_min, downFrom_succ, downFrom_zero]
  | succ k ih =>
    simp only [upTo, filter_one]
    cases input with
    | nil => rfl
    | cons c rest =>
      rw [andThen_one]
      by_cases member : p c = true
      · rw [if_pos member, ih, map_downFrom_succ, List.takeWhile_cons_of_pos member, List.length_cons,
          Nat.add_min_add_right]
      · rw [if_neg member, List.takeWhile_cons_of_neg member, List.length_nil, Nat.min_zero]
        rfl

theorem lengths_rep_zero (most : Option Nat) : (rep (one p) 0 most).lengths input =
    downFrom (min (most.getD input.length) (input.takeWhile p).length + 1) := by
  rw [lengths, andThen, times, List.flatMap_singleton, List.drop_zero, upTo_one, Nat.zero_add, Nat.sub_zero]
  simp

theorem lengths_opt : (opt (one p)).lengths input = if input.head?.any p then [1, 0] else [0] := by
  rw [opt, lengths_rep_zero]
  cases input with
  | nil => rfl
  | cons c rest =>
    rw [List.head?_cons, Option.any_some, List.takeWhile_cons]
    split
    · rw [Option.getD_some, List.length_cons, Nat.min_eq_left (by omega)]
      rfl
    · rfl

theorem takeWhile_length_le : (input.takeWhile p).length ≤ input.length := (List.takeWhile_sublist p).length_le

theorem lengths_star : (star (one p)).lengths input = downFrom ((input.takeWhile p).length + 1) := by
  rw [star, lengths_rep_zero, Option.getD_none, Nat.min_eq_right takeWhile_length_le]

theorem lengths_rep_one (most : Option Nat) (some_turn : ∀ k, most = some k → 0 < k) :
    (rep (one p) 1 most).lengths input =
      (downFrom (min (most.getD input.length) (input.takeWhile p).length)).map (1 + ·) := by
  rw [lengths, andThen, times, times]
  cases input with
  | nil => simp [andThen, lengths]
  | cons c rest =>
    have bound : most.getD (1 + (c :: rest).length) - 1 = most.getD (rest.length + 2) - 1 := by
      rw [List.length_cons, Nat.add_comm 1]
    have turns : min (most.getD (rest.length + 2) - 1) (rest.takeWhile p).length + 1 =
        min (most.getD (rest.length + 1)) ((rest.takeWhile p).length + 1) := by
      have short : (rest.takeWhile p).length ≤ rest.length := takeWhile_length_le
      cases most with
      | none => simp only [Option.getD_none]; omega
      | some k =>
        have pos := some_turn k rfl
        simp only [Option.getD_some]
        omega
    rw [andThen_one]
    by_cases member : p c = true
    · rw [if_pos member, List.takeWhile_cons_of_pos member, List.map_singleton, List.flatMap_singleton, bound, upTo_one,
        List.drop_succ_cons, List.drop_zero, turns]
      rfl
    · rw [if_neg member, List.takeWhile_cons_of_neg member, List.length_nil, Nat.min_zero]
      rfl

theorem lengths_plus : (plus (one p)).lengths input = (downFrom (input.takeWhile p).length).map (1 + ·) := by
  rw [plus, lengths_rep_one none (by simp), Option.getD_none, Nat.min_eq_right takeWhile_length_le]

theorem head?_downFrom (k : Nat) : (downFrom k).head? = if k = 0 then none else some (k - 1) := by
  cases k with
  | zero => rfl
  | succ k => rw [downFrom_succ]; rfl

theorem first_star : (star (one p)).first input = some (input.takeWhile p).length := by
  rw [first, lengths_star, downFrom_succ]
  rfl

theorem first_rep_one (most : Option Nat) (some_turn : ∀ k, most = some k → 0 < k) :
    (rep (one p) 1 most).first input =
      if input.takeWhile p = [] then none else some (min (most.getD input.length) (input.takeWhile p).length) := by
  rw [first, lengths_rep_one most some_turn, List.head?_map, head?_downFrom]
  by_cases none_here : input.takeWhile p = []
  · rw [if_pos none_here, none_here, List.length_nil, Nat.min_zero]
    rfl
  · have pos := List.length_pos_of_ne_nil none_here
    have short : (input.takeWhile p).length ≤ input.length := takeWhile_length_le
    have bound : 0 < most.getD input.length := by
      cases most with
      | none => rw [Option.getD_none]; omega
      | some k => exact some_turn k rfl
    rw [if_neg none_here, if_neg (by omega), Option.map_some]
    congr 1
    omega

theorem first_plus : (plus (one p)).first input =
    if input.takeWhile p = [] then none else some (input.takeWhile p).length := by
  rw [plus, first_rep_one none (by simp), Option.getD_none, Nat.min_eq_right takeWhile_length_le]

theorem first_notAhead : (notAhead r).first input = if r.lengths input = [] then some 0 else none := by
  rw [first, lengths]
  split <;> rfl

/-- An optional symbol in front of a match that cannot begin with one. -/
theorem first_opt_seq (shy : ∀ c rest, p c = true → s.first (c :: rest) = none) :
    (seq (opt (one p)) s).first input =
      (s.first (input.drop (input.head?.any p).toNat)).map ((input.head?.any p).toNat + ·) := by
  rw [first_seq, lengths_opt]
  cases input with
  | nil => simp
  | cons c rest =>
    rw [List.head?_cons, Option.any_some]
    cases lead : p c with
    | true =>
      have none_left := shy c rest lead
      cases later : s.first rest <;> simp [later, none_left]
    | false => simp

/-- The run of a class in front of a match that always succeeds. -/
theorem first_plus_seq {f : List σ → Nat} (always : ∀ input, s.first input = some (f input)) :
    (seq (plus (one p)) s).first input =
      if input.takeWhile p = [] then none
      else some ((input.takeWhile p).length + f (input.drop (input.takeWhile p).length)) := by
  rw [first_seq, lengths_plus]
  by_cases none_here : input.takeWhile p = []
  · rw [if_pos none_here, none_here]
    rfl
  · have pos := List.length_pos_of_ne_nil none_here
    obtain ⟨k, size⟩ := Nat.exists_eq_succ_of_ne_zero pos.ne'
    rw [if_neg none_here, size, Nat.succ_eq_add_one, downFrom_succ, List.map_cons, List.findSome?_cons, always,
      Nat.add_comm 1 k]
    rfl

/-! ### Words -/

/-- The front of the input has the classes in order. -/
def fits : List (σ → Bool) → List σ → Bool
  | [], _ => true
  | _ :: _, [] => false
  | p :: ps, c :: rest => p c && fits ps rest

theorem first_word (ps : List (σ → Bool)) (input : List σ) :
    (word ps).first input = if fits ps input then some ps.length else none := by
  induction ps generalizing input with
  | nil => rfl
  | cons p ps ih =>
    rw [word, first_seq, lengths]
    cases input with
    | nil => rfl
    | cons c rest =>
      rw [List.head?_cons, Option.any_some, fits]
      cases p c with
      | false => rfl
      | true =>
        have later : (word ps).first ((c :: rest).drop 1) = if fits ps rest then some ps.length else none := ih rest
        rw [if_pos rfl, List.findSome?_cons, later, Bool.true_and]
        cases fits ps rest with
        | false => rfl
        | true => simp [Nat.add_comm]

/-! ### Runs that give symbols back -/

theorem stops_after_takeWhile (p : σ → Bool) (input : List σ) :
    input[(input.takeWhile p).length]?.any p = false := by
  induction input with
  | nil => rfl
  | cons c rest ih =>
    by_cases member : p c = true
    · rw [List.takeWhile_cons_of_pos member, List.length_cons, List.getElem?_cons_succ, ih]
    · rw [List.takeWhile_cons_of_neg member, List.length_nil, List.getElem?_cons_zero, Option.any_some]
      simpa using member

theorem holds_in_takeWhile {k : Nat} (inside : k < (input.takeWhile p).length) :
    input[k]?.any p = true ∧ (input.takeWhile p)[k]? = input[k]? := by
  obtain ⟨behind, eq⟩ := List.takeWhile_prefix (l := input) p
  have same : (input.takeWhile p)[k]? = input[k]? := by
    conv_rhs => rw [← eq]
    rw [List.getElem?_append_left inside]
  refine ⟨?_, same⟩
  rw [← same, List.getElem?_eq_getElem inside, Option.any_some]
  exact List.mem_takeWhile_imp (List.getElem_mem inside)

theorem head?_drop_any (k : Nat) : (input.drop k).head?.any p = input[k]?.any p := by
  rw [List.head?_drop]

/-- Going back from `k`, where the class stops: its last member ends the match. -/
theorem findSome_plus {k : Nat} (stop : input[k]?.any p = false) :
    (downFrom k).findSome? (fun n => ((plus (one p)).first (input.drop n)).map (n + ·)) =
      ((downFrom k).find? fun n => input[n]?.any p).map (· + 1) := by
  induction k with
  | zero => rfl
  | succ k ih =>
    rw [downFrom_succ, List.findSome?_cons, List.find?_cons, first_plus]
    cases rest : input.drop k with
    | nil =>
      have here : input[k]?.any p = false := by rw [← head?_drop_any, rest]; rfl
      rw [here]
      exact ih here
    | cons c tail =>
      have here : input[k]?.any p = p c := by rw [← head?_drop_any, rest]; rfl
      rw [here]
      cases member : p c with
      | false =>
        rw [List.takeWhile_cons_of_neg (by simp [member])]
        exact ih (here.trans member)
      | true =>
        have next : tail.takeWhile p = [] := by
          have after : tail = input.drop (k + 1) := by rw [← List.drop_drop, rest, List.drop_succ_cons, List.drop_zero]
          cases tail with
          | nil => rfl
          | cons d tail =>
            rw [← head?_drop_any, ← after, List.head?_cons, Option.any_some] at stop
            rw [List.takeWhile_cons_of_neg (by simp [stop])]
        rw [List.takeWhile_cons_of_pos member, next]
        rfl

/-- A run of one class up to the last member of a narrower one. -/
theorem first_star_plus {q : σ → Bool} (narrow : ∀ c, q c = true → p c = true) :
    (seq (star (one p)) (plus (one q))).first input =
      ((downFrom (input.takeWhile p).length).find? fun n => input[n]?.any q).map (· + 1) := by
  have stop : input[(input.takeWhile p).length]?.any q = false := by
    have outside := stops_after_takeWhile p input
    cases here : input[(input.takeWhile p).length]? with
    | none => rfl
    | some c =>
      rw [here, Option.any_some] at outside
      rw [Option.any_some, Bool.eq_false_iff]
      intro member
      rw [narrow c member] at outside
      cases outside
  have none_there : (plus (one q)).first (input.drop (input.takeWhile p).length) = none := by
    rw [first_plus, if_pos]
    rw [← head?_drop_any] at stop
    cases rest : input.drop (input.takeWhile p).length with
    | nil => rfl
    | cons c tail =>
      rw [rest, List.head?_cons, Option.any_some] at stop
      exact List.takeWhile_cons_of_neg (by simp [stop])
  rw [first_seq, lengths_star, downFrom_succ, List.findSome?_cons, none_there]
  exact findSome_plus stop

theorem first_notAhead_one (q : σ → Bool) (k : Nat) :
    ((notAhead (one q)).first (input.drop k)).map (k + ·) = if input[k]?.any q then none else some k := by
  rw [first_notAhead, lengths, head?_drop_any]
  cases input[k]?.any q <;> rfl

/-- A run that no outsider may follow: all of it at the end of the input, else one symbol less. -/
theorem first_plus_notAhead : (seq (plus (one p)) (notAhead (one fun c => !p c))).first input =
    if input.takeWhile p = [] then none
    else if (input.takeWhile p).length = input.length then some (input.takeWhile p).length
    else if 2 ≤ (input.takeWhile p).length then some ((input.takeWhile p).length - 1)
    else none := by
  have follows := stops_after_takeWhile p input
  have short : (input.takeWhile p).length ≤ input.length := takeWhile_length_le
  rw [first_seq, lengths_plus]
  simp only [first_notAhead_one]
  cases size : (input.takeWhile p).length with
  | zero => rw [if_pos (List.length_eq_zero_iff.mp size)]; rfl
  | succ k =>
    rw [size] at follows short
    rw [if_neg (by intro none_here; rw [none_here] at size; cases size), downFrom_succ, List.map_cons,
      List.findSome?_cons, Nat.add_comm 1 k]
    by_cases whole : k + 1 = input.length
    · rw [List.getElem?_eq_none (by omega), if_pos whole]
      rfl
    · rw [List.getElem?_eq_getElem (by omega), Option.any_some] at follows
      rw [List.getElem?_eq_getElem (by omega), Option.any_some, follows, if_neg whole]
      cases k with
      | zero => rfl
      | succ k =>
        have inside : k + 1 < (input.takeWhile p).length := by omega
        obtain ⟨member, _⟩ := holds_in_takeWhile inside
        rw [List.getElem?_eq_getElem (by omega), Option.any_some] at member
        rw [downFrom_succ, List.map_cons, List.findSome?_cons, Nat.add_comm 1 k, List.getElem?_eq_getElem (by omega),
          Option.any_some, member]
        simp

end Regex

end Mlxforge
