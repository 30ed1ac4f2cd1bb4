import Mathlib.Algebra.Order.Monoid.Unbundled.WithTop
import Mlxforge.Runtime.EngineRuns
import Mlxforge.Sample.SchemaRecognizer

/-!
The mask of constrained decoding: which tokens the worker leaves to the sampler, and how the grammar follows the token
that was sampled.
-/

namespace Mlxforge

open JsonGrammar (NoDeadEnd accepts_append advance_append)

variable {vocab : Nat}

/-- `token_bytes_`: the text of every token by itself. -/
def tokenBytes (decode : List Int → Bytes) (id : Fin vocab) : Bytes := decode [(id : Int)]

/-- Whether a token of the text `bytes` is left to the sampler. -/
def allowToken (eosIds : List Int) (g : JsonGrammar) (id : Fin vocab) (bytes : Bytes) : Bool :=
  let complete := g.complete
  let firstOk := fun b => !complete && g.accepts [b]
  if eosIds.contains (id : Int) then complete
  else if complete then false
  else
    match bytes with
    | [] => false  -- a special token is not JSON
    | b :: rest => if !firstOk b then false else g.accepts (b :: rest)

def allowed (tokens : Fin vocab → Bytes) (eosIds : List Int) (g : JsonGrammar) : Nat :=
  (List.finRange vocab).countP fun id => allowToken eosIds g id (tokens id)

/-- 0 or -inf for each token; where nothing is allowed the logits are left as they are. -/
def Worker.grammarMask {K : Type} [Zero K] (tokens : Fin vocab → Bytes) (eosIds : List Int) (g : JsonGrammar) :
    Fin vocab → WithBot K :=
  if allowed tokens eosIds g = 0 then fun _ => 0
  else fun id => if allowToken eosIds g id (tokens id) then 0 else ⊥

/-- `advance_grammar`. -/
def advanceToken (tokens : Fin vocab → Bytes) (chosenId : Int) (g : JsonGrammar) : JsonGrammar :=
  if inside : 0 ≤ chosenId ∧ chosenId.toNat < vocab then g.advance (tokens ⟨chosenId.toNat, inside.2⟩) else g

section worker
variable {V Key I K : Type} [AddZeroClass K]

/-- The worker with the masks of its own grammars. -/
def WorkerEnv.constrained (env : WorkerEnv V (Fin vocab → WithBot K) Key JsonGrammar I) (decode : List Int → Bytes) :
    WorkerEnv V (Fin vocab → WithBot K) Key JsonGrammar I :=
  { env with
    grammarMask := fun eosIds g row id => row id + Worker.grammarMask (tokenBytes decode) eosIds g id
    grammarAdvance := advanceToken (tokenBytes decode : Fin vocab → Bytes) }

end worker

/-! ### What the mask leaves -/

section mask
variable {decode : List Int → Bytes} {tokens : Fin vocab → Bytes} {eosIds : List Int} {g : JsonGrammar} {id : Fin vocab}
  {bytes : Bytes}

theorem allowToken_eos (eos : (id : Int) ∈ eosIds) : allowToken eosIds g id bytes = g.complete := by
  unfold allowToken
  exact if_pos (List.contains_iff_mem.mpr eos)

/-- An ordinary token is left where the document is not complete and its text goes on with it. -/
theorem allowToken_ordinary (ordinary : (id : Int) ∉ eosIds) :
    allowToken eosIds g id bytes = true ↔ g.complete = false ∧ bytes ≠ [] ∧ g.accepts bytes = true := by
  unfold allowToken
  dsimp only
  rw [if_neg (by simpa using ordinary)]
  cases complete : g.complete with
  | true => simp
  | false =>
    cases bytes with
    | nil => simp
    | cons b rest =>
      have first : g.accepts (b :: rest) = true → g.accepts [b] = true := by
        intro whole
        rw [← List.singleton_append, accepts_append] at whole
        exact Bool.and_elim_left whole
      cases head : g.accepts [b] with
      | true => simpa using fun _ => head
      | false =>
        have refused : g.accepts (b :: rest) = false := by
          by_contra whole
          rw [first (by simpa using whole)] at head
          cases head
        simp [refused]

/-- What the mask leaves is allowed, if anything is. -/
theorem grammarMask_left {K : Type} [Zero K] (some : ∃ id, allowToken eosIds g id (tokens id) = true)
    (left : Worker.grammarMask (K := K) tokens eosIds g id ≠ ⊥) : allowToken eosIds g id (tokens id) = true := by
  obtain ⟨id', left'⟩ := some
  have count : allowed tokens eosIds g ≠ 0 := (List.countP_pos_iff.mpr ⟨id', List.mem_finRange id', left'⟩).ne'
  rw [Worker.grammarMask, if_neg count] at left
  by_contra refused
  rw [if_neg refused] at left
  exact left rfl

/-- Along a grammar without dead ends a token is left: an end token where the document is complete, and a single byte
where it is not. -/
theorem exists_allowed (alive : NoDeadEnd g)
    (singles : ∀ b : UInt8, ∃ id : Fin vocab, tokens id = [b] ∧ (id : Int) ∉ eosIds)
    (ends : ∃ id : Fin vocab, (id : Int) ∈ eosIds) {s : Bytes} (accepted : g.accepts s = true) :
    ∃ id, allowToken eosIds (g.advance s) id (tokens id) = true := by
  cases complete : (g.advance s).complete with
  | true =>
    obtain ⟨id, eos⟩ := ends
    exact ⟨id, (allowToken_eos eos).trans complete⟩
  | false =>
    obtain ⟨t, goesOn, done⟩ := alive s accepted
    rw [advance_append] at done
    rw [accepts_append, accepted, Bool.true_and] at goesOn
    cases t with
    | nil => exact absurd done (by rw [JsonGrammar.advance, List.foldl_nil, complete]; exact Bool.false_ne_true)
    | cons b t =>
      obtain ⟨id, single, ordinary⟩ := singles b
      rw [← List.singleton_append, accepts_append] at goesOn
      refine ⟨id, (allowToken_ordinary ordinary).mpr ⟨complete, ?_, ?_⟩⟩
      · rw [single]
        exact List.cons_ne_nil b []
      · rw [single]
        exact Bool.and_elim_left goesOn

end mask

end Mlxforge
