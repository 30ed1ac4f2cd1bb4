import Mlxforge.Lib.Transition
import Mlxforge.Scheduler.SpscQueue

/-!
One request as its two threads see it: the worker, which samples, pushes and closes, and a consumer of
either kind on the other end of the token and log-prob queues.
-/

namespace Mlxforge

variable {F C : Type}

/-- What the worker does for a request depends on the tokens the model samples and on the request's limits. -/
structure Generation (F : Type) where
  samples : Nat → Int × TokenLogprob F
  eosIds : List Int
  maxTokens : Int
  /-- `params.top_logprobs`: negative when no log-prob is reported. -/
  topLogprobs : Int

namespace Generation

variable (g : Generation F)

def isEos (k : Nat) : Bool := g.eosIds.contains (g.samples k).1

def reportsLogprobs : Bool := decide (0 ≤ g.topLogprobs)

/-- The tokens an uncancelled request emits: up to the first EOS, at most `max_tokens`, at least one. -/
def generated : List Nat := (List.range (max 1 g.maxTokens.toNat)).takeWhile fun k => !g.isEos k

theorem lt_takeWhile_range' (p : Nat → Bool) (start n k : Nat) :
    k < ((List.range' start n).takeWhile p).length ↔ k < n ∧ ∀ i ≤ k, p (start + i) = true := by
  induction n generalizing start k with
  | zero => simp
  | succ n ih =>
    rw [List.range'_succ, List.takeWhile_cons]
    by_cases first : p start = true
    · rw [if_pos first, List.length_cons]
      cases k with
      | zero => simpa using first
      | succ k =>
        rw [Nat.succ_lt_succ_iff, ih, Nat.succ_lt_succ_iff]
        refine and_congr_right fun _ => ⟨fun rest i below => ?_, fun all i below => ?_⟩
        · cases i with
          | zero => exact first
          | succ i => rw [Nat.add_comm i 1, ← Nat.add_assoc]; exact rest i (by omega)
        · rw [Nat.add_assoc, Nat.add_comm 1 i]
          exact all (i + 1) (by omega)
    · rw [if_neg first]
      exact ⟨fun h => absurd h (Nat.not_lt_zero k), fun ⟨_, all⟩ => absurd (all 0 (Nat.zero_le k)) first⟩

theorem lt_generated {k : Nat} :
    k < g.generated.length ↔ k < max 1 g.maxTokens.toNat ∧ ∀ i ≤ k, g.isEos i = false := by
  rw [generated, List.range_eq_range', lt_takeWhile_range']
  simp

end Generation

/-- Where the worker stands with a request. The two pushes are the points where it can block. -/
inductive WorkerAt where
  | admitting | consuming | pushToken | pushLogprob | closeTokens | closeLogprobs | finished
  deriving DecidableEq, Repr

/-- One while the log-prob of the token just pushed is still to come. -/
def WorkerAt.owed : WorkerAt → Nat
  | .pushLogprob => 1
  | _ => 0

structure RequestState (F C : Type) where
  tokens : SpscQueue Int := {}
  logprobs : SpscQueue (TokenLogprob F) := {}
  cancelled : Bool := false
  finishReason : String := ""
  produced : Nat := 0
  worker : WorkerAt := .admitting
  consumer : C

namespace RequestState

/-- `++produced >= max_tokens`, after the pushes of one token. -/
def counted (g : Generation F) (s : RequestState F C) : RequestState F C :=
  let s := { s with produced := s.produced + 1 }
  if g.maxTokens ≤ s.produced then { s with finishReason := "length", worker := .closeTokens }
  else { s with worker := .consuming }

/-- The worker's next action on the request; `none` while a push waits for room, and once it is done. -/
def workerStep (g : Generation F) (s : RequestState F C) : Option (RequestState F C) :=
  match s.worker with
  | .admitting => some { s with worker := .consuming }
  | .consuming =>
    if s.cancelled then some { s with finishReason := "cancel", worker := .closeTokens }
    else if g.isEos s.produced then some { s with finishReason := "stop", worker := .closeTokens }
    else some { s with worker := .pushToken }
  | .pushToken => do
    let tokens ← s.tokens.push (g.samples s.produced).1
    let s := { s with tokens }
    return if g.reportsLogprobs then { s with worker := .pushLogprob } else s.counted g
  | .pushLogprob => do
    let logprobs ← s.logprobs.push (g.samples s.produced).2
    return { s with logprobs }.counted g
  | .closeTokens => some { s with tokens := s.tokens.close, worker := .closeLogprobs }
  | .closeLogprobs => some { s with logprobs := s.logprobs.close, worker := .finished }
  | .finished => none

/-- A multimodal or embedding request whose admission throws. -/
def admitFails (s : RequestState F C) : Option (RequestState F C) :=
  if s.worker = .admitting then some { s with finishReason := "error", worker := .closeTokens } else none

/-- The worker waits inside a push. -/
def WorkerBlocked (s : RequestState F C) : Prop :=
  (s.worker = .pushToken ∧ s.tokens.closed = false ∧ s.tokens.capacity ≤ s.tokens.items.length) ∨
    (s.worker = .pushLogprob ∧ s.logprobs.closed = false ∧ s.logprobs.capacity ≤ s.logprobs.items.length)

/-- The worker is blocked exactly where it has work left and no step. -/
theorem workerBlocked_iff (g : Generation F) (s : RequestState F C) :
    s.WorkerBlocked ↔ s.workerStep g = none ∧ s.worker ≠ .finished := by
  unfold WorkerBlocked workerStep
  cases at_worker : s.worker with
  | consuming => cases s.cancelled <;> cases g.isEos s.produced <;> simp
  | pushToken =>
    cases pushed : s.tokens.push (g.samples s.produced).1 with
    | none => simpa using SpscQueue.push_eq_none.mp pushed
    | some q =>
      have room : ¬ (s.tokens.closed = false ∧ s.tokens.capacity ≤ s.tokens.items.length) := fun full => by
        rw [SpscQueue.push_eq_none.mpr full] at pushed
        cases pushed
      simpa using room
  | pushLogprob =>
    cases pushed : s.logprobs.push (g.samples s.produced).2 with
    | none => simpa using SpscQueue.push_eq_none.mp pushed
    | some q =>
      have room : ¬ (s.logprobs.closed = false ∧ s.logprobs.capacity ≤ s.logprobs.items.length) := fun full => by
        rw [SpscQueue.push_eq_none.mpr full] at pushed
        cases pushed
      simpa using room
  | _ => simp

/-- What the worker has done so far fits the request's limits and the queues' contents. -/
structure Bounded (g : Generation F) (s : RequestState F C) : Prop where
  /-- While tokens may still be sampled, the next one is within the limit and no EOS came before. -/
  going : s.worker = .admitting ∨ s.worker = .consuming ∨ s.worker = .pushToken ∨ s.worker = .pushLogprob →
    s.produced < max 1 g.maxTokens.toNat ∧ ∀ i < s.produced, g.isEos i = false
  emitting : s.worker = .pushToken ∨ s.worker = .pushLogprob → g.isEos s.produced = false
  reporting : s.worker = .pushLogprob → g.reportsLogprobs = true
  tokens : s.tokens.items.length ≤ s.produced + s.worker.owed
  logprobs : s.logprobs.items.length ≤ s.produced
  tokensClosed : s.tokens.closed = true ↔ s.worker = .closeLogprobs ∨ s.worker = .finished
  logprobsClosed : s.logprobs.closed = true ↔ s.worker = .finished

variable {g : Generation F} {s s' : RequestState F C}

theorem counted_bounded (started : s.tokens.closed = false) (opened : s.logprobs.closed = false)
    (before : ∀ i < s.produced, g.isEos i = false) (here : g.isEos s.produced = false) (tokens : s.tokens.items.length ≤ s.produced + 1)
    (logprobs : s.logprobs.items.length ≤ s.produced + 1) : (s.counted g).Bounded g := by
  have upTo : ∀ i < s.produced + 1, g.isEos i = false := fun i below => by
    rcases Nat.lt_succ_iff_lt_or_eq.mp below with h | rfl
    · exact before i h
    · exact here
  simp only [counted]
  split
  · exact ⟨by simp, by simp, by simp, by simpa [WorkerAt.owed] using tokens, logprobs, by simp [started], by simp [opened]⟩
  · rename_i more
    have more : ((s.produced + 1 : Nat) : Int) < g.maxTokens := Int.not_le.mp more
    exact ⟨fun _ => ⟨by simp only; omega, upTo⟩, by simp, by simp, by simpa [WorkerAt.owed] using tokens, logprobs,
      by simp [started], by simp [opened]⟩

theorem workerStep_bounded (bounded : s.Bounded g) (stepped : s.workerStep g = some s') : s'.Bounded g := by
  obtain ⟨going, emitting, reporting, tokens, logprobs, tokensClosed, logprobsClosed⟩ := bounded
  unfold workerStep at stepped
  cases at_worker : s.worker with
  | admitting =>
    simp only [at_worker] at stepped going tokens tokensClosed logprobsClosed
    obtain rfl := Option.some.inj stepped
    exact ⟨fun _ => going (by simp), by simp, by simp, by simpa [WorkerAt.owed] using tokens, logprobs, by simpa [WorkerAt.owed] using tokensClosed,
      by simpa using logprobsClosed⟩
  | consuming =>
    simp only [at_worker] at stepped going tokens tokensClosed logprobsClosed
    split at stepped
    · obtain rfl := Option.some.inj stepped
      exact ⟨by simp, by simp, by simp, by simpa [WorkerAt.owed] using tokens, logprobs, by simpa [WorkerAt.owed] using tokensClosed,
        by simpa using logprobsClosed⟩
    · split at stepped <;> obtain rfl := Option.some.inj stepped
      · exact ⟨by simp, by simp, by simp, by simpa [WorkerAt.owed] using tokens, logprobs, by simpa [WorkerAt.owed] using tokensClosed,
          by simpa using logprobsClosed⟩
      · rename_i notEos
        exact ⟨fun _ => going (by simp), fun _ => by simpa using notEos, by simp, by simpa [WorkerAt.owed] using tokens, logprobs,
          by simpa [WorkerAt.owed] using tokensClosed, by simpa using logprobsClosed⟩
  | pushToken =>
    simp only [at_worker] at stepped going emitting tokens tokensClosed logprobsClosed
    obtain ⟨q, pushed, rest⟩ := Option.bind_eq_some_iff.mp stepped
    obtain ⟨inside, before⟩ := going (by simp)
    have here := emitting (by simp)
    have opened : s.tokens.closed = false := by simpa [WorkerAt.owed] using tokensClosed
    have lpOpened : s.logprobs.closed = false := by simpa using logprobsClosed
    obtain ⟨_, closed, ⟨dropped, _⟩ | ⟨_, items⟩⟩ := SpscQueue.push_spec pushed
    · rw [opened] at dropped; cases dropped
    have grown : q.items.length ≤ s.produced + 1 := by rw [items, List.length_append]; simpa [WorkerAt.owed] using tokens
    obtain rfl := Option.some.inj rest
    by_cases report : g.reportsLogprobs
    · rw [if_pos report]
      exact ⟨fun _ => ⟨inside, before⟩, fun _ => here, fun _ => report, by simpa [WorkerAt.owed] using grown, logprobs,
        by simp [closed, opened], by simp [lpOpened]⟩
    · rw [if_neg report]
      exact counted_bounded (closed.trans opened) lpOpened before here grown (Nat.le_succ_of_le logprobs)
  | pushLogprob =>
    simp only [at_worker] at stepped going emitting tokens tokensClosed logprobsClosed
    obtain ⟨q, pushed, rest⟩ := Option.bind_eq_some_iff.mp stepped
    obtain ⟨inside, before⟩ := going (by simp)
    have here := emitting (by simp)
    have opened : s.tokens.closed = false := by simpa [WorkerAt.owed] using tokensClosed
    have lpOpened : s.logprobs.closed = false := by simpa using logprobsClosed
    obtain ⟨_, closed, ⟨dropped, _⟩ | ⟨_, items⟩⟩ := SpscQueue.push_spec pushed
    · rw [lpOpened] at dropped; cases dropped
    obtain rfl := Option.some.inj rest
    exact counted_bounded opened (closed.trans lpOpened) before here (by simpa [WorkerAt.owed] using tokens)
      (by simp only [items, List.length_append, List.length_singleton]; omega)
  | closeTokens =>
    simp only [at_worker] at stepped tokens logprobsClosed
    obtain rfl := Option.some.inj stepped
    exact ⟨by simp, by simp, by simp, by simpa [SpscQueue.close, WorkerAt.owed] using tokens, logprobs, by simp [SpscQueue.close],
      by simpa using logprobsClosed⟩
  | closeLogprobs =>
    simp only [at_worker] at stepped tokens tokensClosed
    obtain rfl := Option.some.inj stepped
    exact ⟨by simp, by simp, by simp, by simpa [WorkerAt.owed] using tokens, logprobs, by simpa [WorkerAt.owed] using tokensClosed,
      by simp [SpscQueue.close]⟩
  | finished =>
    simp only [at_worker] at stepped
    cases stepped

theorem admitFails_bounded (bounded : s.Bounded g) (stepped : s.admitFails = some s') : s'.Bounded g := by
  obtain ⟨_, _, _, tokens, logprobs, tokensClosed, logprobsClosed⟩ := bounded
  unfold admitFails at stepped
  split at stepped
  · rename_i at_worker
    obtain rfl := Option.some.inj stepped
    simp only [at_worker] at tokens tokensClosed logprobsClosed
    exact ⟨by simp, by simp, by simp, by simpa [WorkerAt.owed] using tokens, logprobs, by simpa [WorkerAt.owed] using tokensClosed,
      by simpa using logprobsClosed⟩
  · cases stepped

/-- The worker leaves the consumer's side and the capacities alone, and never reopens a queue. -/
theorem workerStep_frame (stepped : s.workerStep g = some s') :
    s'.consumer = s.consumer ∧ s'.tokens.capacity = s.tokens.capacity ∧
      s'.logprobs.capacity = s.logprobs.capacity ∧ (s.tokens.closed = true → s'.tokens.closed = true) := by
  have counts : ∀ t : RequestState F C, (t.counted g).consumer = t.consumer ∧ (t.counted g).tokens = t.tokens ∧
      (t.counted g).logprobs = t.logprobs := by
    intro t
    simp only [counted]
    split <;> exact ⟨rfl, rfl, rfl⟩
  unfold workerStep at stepped
  split at stepped
  · obtain rfl := Option.some.inj stepped
    exact ⟨rfl, rfl, rfl, id⟩
  · split at stepped
    · obtain rfl := Option.some.inj stepped
      exact ⟨rfl, rfl, rfl, id⟩
    · split at stepped <;> obtain rfl := Option.some.inj stepped <;> exact ⟨rfl, rfl, rfl, id⟩
  · obtain ⟨q, pushed, rest⟩ := Option.bind_eq_some_iff.mp stepped
    obtain ⟨capacity, closed, _⟩ := SpscQueue.push_spec pushed
    obtain rfl := Option.some.inj rest
    split
    · exact ⟨rfl, capacity, rfl, closed.trans⟩
    · obtain ⟨consumer, tokens, logprobs⟩ := counts { s with tokens := q }
      exact ⟨consumer, by rw [tokens]; exact capacity, by rw [logprobs], by rw [tokens]; exact closed.trans⟩
  · obtain ⟨q, pushed, rest⟩ := Option.bind_eq_some_iff.mp stepped
    obtain ⟨capacity, _⟩ := SpscQueue.push_spec pushed
    obtain rfl := Option.some.inj rest
    obtain ⟨consumer, tokens, logprobs⟩ := counts { s with logprobs := q }
    exact ⟨consumer, by rw [tokens], by rw [logprobs]; exact capacity, by rw [tokens]; exact id⟩
  · obtain rfl := Option.some.inj stepped
    exact ⟨rfl, rfl, rfl, fun _ => rfl⟩
  · obtain rfl := Option.some.inj stepped
    exact ⟨rfl, rfl, rfl, id⟩
  · cases stepped

/-- With log-probs reported, each token pushed comes with one log-prob pushed or pending. -/
theorem workerStep_balance (bounded : s.Bounded g) (reports : g.reportsLogprobs = true)
    (stepped : s.workerStep g = some s') :
    s'.tokens.items.length + s.logprobs.items.length + s.worker.owed =
      s.tokens.items.length + s'.logprobs.items.length + s'.worker.owed := by
  have counts : ∀ t : RequestState F C, (t.counted g).tokens = t.tokens ∧ (t.counted g).logprobs = t.logprobs ∧
      (t.counted g).worker.owed = 0 := by
    intro t
    simp only [counted]
    split <;> exact ⟨rfl, rfl, rfl⟩
  unfold workerStep at stepped
  split at stepped <;> rename_i at_worker
  · obtain rfl := Option.some.inj stepped
    simp [at_worker, WorkerAt.owed]
  · split at stepped
    · obtain rfl := Option.some.inj stepped
      simp [at_worker, WorkerAt.owed]
    · split at stepped <;> obtain rfl := Option.some.inj stepped <;> simp [at_worker, WorkerAt.owed]
  · obtain ⟨q, pushed, rest⟩ := Option.bind_eq_some_iff.mp stepped
    have opened : s.tokens.closed = false := by simpa [at_worker] using bounded.tokensClosed
    obtain ⟨_, _, ⟨dropped, _⟩ | ⟨_, items⟩⟩ := SpscQueue.push_spec pushed
    · rw [opened] at dropped; cases dropped
    simp only [if_pos reports] at rest
    obtain rfl := Option.some.inj rest
    simp only [at_worker, items, List.length_append, List.length_singleton, WorkerAt.owed]
    omega
  · obtain ⟨q, pushed, rest⟩ := Option.bind_eq_some_iff.mp stepped
    have opened : s.logprobs.closed = false := by simpa [at_worker] using bounded.logprobsClosed
    obtain ⟨_, _, ⟨dropped, _⟩ | ⟨_, items⟩⟩ := SpscQueue.push_spec pushed
    · rw [opened] at dropped; cases dropped
    obtain rfl := Option.some.inj rest
    obtain ⟨tokens, logprobs, pending⟩ := counts { s with logprobs := q }
    rw [tokens, logprobs, pending, at_worker]
    simp only [items, List.length_append, List.length_singleton, WorkerAt.owed]
    omega
  · obtain rfl := Option.some.inj stepped
    simp [at_worker, SpscQueue.close, WorkerAt.owed]
  · obtain rfl := Option.some.inj stepped
    simp [at_worker, SpscQueue.close, WorkerAt.owed]
  · cases stepped

/-- A consumer only takes items out. -/
theorem Bounded.drained (bounded : s.Bounded g) (worker : s'.worker = s.worker) (produced : s'.produced = s.produced)
    (tokens : s'.tokens.items.length ≤ s.tokens.items.length)
    (logprobs : s'.logprobs.items.length ≤ s.logprobs.items.length)
    (tokensClosed : s'.tokens.closed = s.tokens.closed) (logprobsClosed : s'.logprobs.closed = s.logprobs.closed) :
    s'.Bounded g where
  going := by rw [worker, produced]; exact bounded.going
  emitting := by rw [worker, produced]; exact bounded.emitting
  reporting := by rw [worker]; exact bounded.reporting
  tokens := by rw [worker, produced]; exact tokens.trans bounded.tokens
  logprobs := by rw [produced]; exact logprobs.trans bounded.logprobs
  tokensClosed := by rw [worker, tokensClosed]; exact bounded.tokensClosed
  logprobsClosed := by rw [worker, logprobsClosed]; exact bounded.logprobsClosed

/-- While the worker is pushing, what it has produced is short of what the request generates. -/
theorem Bounded.produced_lt (bounded : s.Bounded g) (pushing : s.worker = .pushToken ∨ s.worker = .pushLogprob) :
    s.produced < g.generated.length := by
  obtain ⟨inside, before⟩ := bounded.going (by tauto)
  refine g.lt_generated.mpr ⟨inside, fun i below => ?_⟩
  rcases Nat.lt_or_eq_of_le below with h | rfl
  · exact before i h
  · exact bounded.emitting pushing

/-- Queues with room for the whole generation never block the worker. -/
theorem Bounded.unblocked (bounded : s.Bounded g) (tokens : g.generated.length ≤ s.tokens.capacity)
    (logprobs : g.generated.length ≤ s.logprobs.capacity) : ¬ s.WorkerBlocked := by
  rintro (⟨at_worker, _, full⟩ | ⟨at_worker, _, full⟩)
  · have more := bounded.produced_lt (.inl at_worker)
    have held := bounded.tokens
    simp only [at_worker, WorkerAt.owed] at held
    omega
  · have more := bounded.produced_lt (.inr at_worker)
    have held := bounded.logprobs
    omega

end RequestState

end Mlxforge
