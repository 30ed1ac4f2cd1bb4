import Mathlib.Data.List.Basic
import Mathlib.Tactic.Common

/-!
Autoregressive generation: each token is chosen from everything ahead of it, until a stop token is chosen or a limit is
reached. A machine that emits one token at a time is `Underway` until it ends with what `generate` gives.
-/

namespace Mlxforge.Generation

variable {α : Type}

/-- What follows `context`, at most `n` tokens, and whether a stop token ended it. -/
def generate (next : List α → α) (stop : α → Bool) : (n : Nat) → (context : List α) → List α × Bool
  | 0, _ => ([], false)
  | n + 1, context =>
    if stop (next context) then ([], true)
    else
      let rest := generate next stop n (context ++ [next context])
      (next context :: rest.1, rest.2)

/-- `ts` was emitted behind `context` and the rest of the `n` tokens is still to come. -/
structure Underway (next : List α → α) (stop : α → Bool) (n : Nat) (context ts : List α) : Prop where
  fits : ts.length ≤ n
  rest : generate next stop n context = (ts ++ (generate next stop (n - ts.length) (context ++ ts)).1,
    (generate next stop (n - ts.length) (context ++ ts)).2)

variable {next : List α → α} {stop : α → Bool} {n : Nat} {context ts : List α}

theorem generate_length_le : (generate next stop n context).1.length ≤ n := by
  induction n generalizing context with
  | zero => exact Nat.le_refl 0
  | succ n ih =>
    rw [generate]
    split
    · exact Nat.zero_le _
    · exact Nat.succ_le_succ ih

namespace Underway

theorem start (next : List α → α) (stop : α → Bool) (n : Nat) (context : List α) : Underway next stop n context [] :=
  ⟨Nat.zero_le n, by simp⟩

theorem emit (underway : Underway next stop n context ts) (more : ts.length < n) (going : stop (next (context ++ ts)) = false) :
    Underway next stop n context (ts ++ [next (context ++ ts)]) where
  fits := by
    rw [List.length_append, List.length_singleton]
    exact more
  rest := by
    obtain ⟨k, left⟩ := Nat.exists_eq_add_of_lt more
    have before : n - ts.length = k + 1 := by omega
    have after : n - (ts ++ [next (context ++ ts)]).length = k := by
      rw [List.length_append, List.length_singleton]
      omega
    rw [underway.rest, before, after, generate, going]
    simp

theorem stopped (underway : Underway next stop n context ts) (more : ts.length < n) (stops : stop (next (context ++ ts)) = true) :
    generate next stop n context = (ts, true) := by
  obtain ⟨k, left⟩ := Nat.exists_eq_add_of_lt more
  have before : n - ts.length = k + 1 := by omega
  rw [underway.rest, before, generate, stops]
  simp

theorem full (underway : Underway next stop n context ts) (done : n ≤ ts.length) : generate next stop n context = (ts, false) := by
  have none : n - ts.length = 0 := by omega
  rw [underway.rest, none]
  simp [generate]

theorem isPrefix (underway : Underway next stop n context ts) : ts <+: (generate next stop n context).1 :=
  ⟨_, (congrArg Prod.fst underway.rest).symm⟩

end Underway

end Mlxforge.Generation
