import Mlxforge.Model.Decoder

/-!
The prefill pass: left-padded prompts through a fresh cache, or a prompt's suffix through a
cache seeded with pooled blocks, at once or a chunk per worker iteration.
-/

namespace Mlxforge

variable {V L : Type}

def prefillBatchSize : Nat := 8

def prefillStepSize : Nat := 2048

/-- The decode bucket of an active batch: 1, 2, 4, 8, 16, 32, then multiples of 32. -/
def nextBucket (n : Nat) : Nat :=
  match [1, 2, 4, 8, 16, 32].find? fun b => decide (n ≤ b) with
  | some b => b
  | none => (n + 31) / 32 * 32

theorem le_nextBucket (n : Nat) : n ≤ nextBucket n := by
  unfold nextBucket
  split
  · rename_i b found
    simpa using List.find?_some found
  · omega

def maxLength (prompts : List (List Int)) : Nat := prompts.foldl (fun p ids => max p ids.length) 0

/-- Each row's pad count, and the `(B, p_max)` matrix of left-padded prompts. -/
def leftPad (prompts : List (List Int)) (padId : Int := 0) : List Int × KvArray Int :=
  let pMax := maxLength prompts
  (prompts.map fun ids => ((pMax - ids.length : Nat) : Int),
   ⟨prompts.length, pMax, fun b j =>
     let ids := prompts.getD b []
     let pad := pMax - ids.length
     if j < pad then padId else ids.getD (j - pad) padId⟩)

/-- The `(1, suffix)` matrix of a prompt's tokens from `cachedLen` on. -/
def suffixTokens (prompt : List Int) (cachedLen : Nat) : KvArray Int :=
  ⟨1, prompt.length - cachedLen, fun _ j => prompt.getD (cachedLen + j) 0⟩

/-- The last column of a chunk's logits. -/
def lastColumn (logits : KvArray L) : List L :=
  (List.range logits.batch).map fun b => logits.get b (logits.cap - 1)

structure PrefillResult (V L : Type) where
  cache : BatchKVCache V
  lastLogits : List L
  leftPadding : List Int

variable [Slot V] (m : LoadedModel V L)

/-- The chunk loop both prefill functions share, from column `c` on; `fuel` bounds its turns. -/
def chunkLoop (stepSize : Nat) (tokens : KvArray Int) :
    (fuel c : Nat) → KvArray L → BatchKVCache V → Except Fault (KvArray L × BatchKVCache V)
  | 0, _, logits, cache => .ok (logits, cache)
  | fuel + 1, c, logits, cache =>
    if c < tokens.cap then do
      let n := min stepSize (tokens.cap - c)
      let (logits, cache) ← m.forward (tokens.sliceSeq c (c + n : Nat)) cache
      chunkLoop stepSize tokens fuel (c + stepSize) logits cache
    else .ok (logits, cache)

def prefill (kStep : Nat) (prompts : List (List Int)) (stepSize : Nat := prefillStepSize) (padId : Int := 0)
    (kvQuant : KVQuantConfig := {}) : Except Fault (PrefillResult V L) := do
  let (leftPadding, tokens) := leftPad prompts padId
  let cache := BatchKVCache.new kStep m.nLayers leftPadding kvQuant
  let logits := ⟨prompts.length, 1, fun _ _ => m.zeroLogits⟩
  let (logits, cache) ← chunkLoop m stepSize tokens tokens.cap 0 logits cache
  return ⟨cache, lastColumn logits, leftPadding⟩

def prefillWithPrefix (kStep : Nat) (prompt : List Int) (blocks : List (KVBlock V)) (cachedLen : Nat)
    (stepSize : Nat := prefillStepSize) (kvQuant : KVQuantConfig := {}) : Except Fault (PrefillResult V L) := do
  let cache ← BatchKVCache.fromPrefix kStep m.nLayers blocks cachedLen kvQuant
  let tokens := suffixTokens prompt cachedLen
  let logits := ⟨1, 1, fun _ _ => m.zeroLogits⟩
  let (logits, cache) ← chunkLoop m stepSize tokens tokens.cap 0 logits cache
  return ⟨cache, lastColumn logits, [0]⟩

/-! ### Interleaved prefill -/

/-- A prefill in flight: the requests `reqs` wait while `tokens` is fed chunk by chunk. -/
structure PendingPrefill (R V : Type) where
  reqs : List R
  tokens : KvArray Int
  cache : BatchKVCache V
  nTotal : Nat
  pos : Nat := 0
  reusedTokens : Nat := 0

namespace PendingPrefill

variable {R : Type}

/-- The unit of a prefix hit: a seeded cache and the uncached suffix. -/
def warm (kStep : Nat) (r : R) (prompt : List Int) (blocks : List (KVBlock V)) (cachedLen : Nat)
    (kvQuant : KVQuantConfig := {}) : Except Fault (PendingPrefill R V) := do
  let cache ← BatchKVCache.fromPrefix kStep m.nLayers blocks cachedLen kvQuant
  let tokens := suffixTokens prompt cachedLen
  return { reqs := [r], tokens, cache, nTotal := tokens.cap, reusedTokens := cachedLen }

/-- The unit the cold requests of one admission share. -/
def cold (kStep : Nat) (reqs : List R) (prompts : List (List Int)) (kvQuant : KVQuantConfig := {}) :
    PendingPrefill R V :=
  let (leftPadding, tokens) := leftPad prompts
  { reqs, tokens, cache := .new kStep m.nLayers leftPadding kvQuant, nTotal := tokens.cap }

/-- One turn of `advance_chunked_prefill`: a chunk is fed, and after the final one the logits of the last
column come with the unit. -/
def advance (prefillChunk : Nat) (p : PendingPrefill R V) :
    Except Fault (PendingPrefill R V × Option (List L)) := do
  let n := min prefillChunk (p.nTotal - p.pos)
  let (logits, cache) ← m.forward (p.tokens.sliceSeq p.pos (p.pos + n : Nat)) p.cache
  let p := { p with cache, pos := p.pos + n }
  return (p, if p.pos < p.nTotal then none else some (lastColumn logits))

/-- Turns until the final chunk. -/
def run (prefillChunk : Nat) : (fuel : Nat) → PendingPrefill R V →
    Except Fault (Option (PendingPrefill R V × List L))
  | 0, _ => .ok none
  | fuel + 1, p => do
    match ← p.advance m prefillChunk with
    | (p, some last) => return some (p, last)
    | (p, none) => run prefillChunk fuel p

end PendingPrefill

end Mlxforge
