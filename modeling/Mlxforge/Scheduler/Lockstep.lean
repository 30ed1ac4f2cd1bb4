import Mlxforge.Scheduler.RequestQueues

/-!
Tokens and log-probs in lockstep: what a consumer has taken out of the two queues and what still lies in them are
together what the worker has pushed, and neither thread can wait for the other.
-/

namespace Mlxforge

variable {F C : Type}

/-- What a drain loop has taken so far. -/
structure Received (F : Type) where
  tokens : List Int
  logprobs : List (TokenLogprob F)
  /-- A token has come and its log-prob is popped next. -/
  midPair : Bool
  /-- The end of the stream has been seen. -/
  ended : Bool

namespace RequestState

section
variable (g : Generation F) (s : RequestState F C)

def pushedTokens : List Int := (List.range (s.produced + s.worker.owed)).map fun k => (g.samples k).1

def pushedLogprobs : List (TokenLogprob F) :=
  if g.reportsLogprobs then (List.range s.produced).map fun k => (g.samples k).2 else []

/-- The consumer has the tokens pushed first, each with the log-prob pushed for it, and all of them once it has seen
the end. -/
structure Delivered (r : Received F) : Prop where
  tokens : r.tokens <+: s.pushedTokens g
  logprobs : r.logprobs <+: s.pushedLogprobs g
  paired : g.reportsLogprobs = true → r.tokens.length = r.logprobs.length + r.midPair.toNat
  ended : r.ended = true → r.tokens = (List.range s.produced).map (fun k => (g.samples k).1) ∧
    r.logprobs = (if g.reportsLogprobs then (List.range s.produced).map fun k => (g.samples k).2 else [])

variable (view : C → Received F)

structure InLockstep : Prop where
  bounded : s.Bounded g
  tokens : (view s.consumer).tokens ++ s.tokens.items = s.pushedTokens g
  logprobs : (view s.consumer).logprobs ++ s.logprobs.items = s.pushedLogprobs g
  midPair : (view s.consumer).midPair = true → g.reportsLogprobs = true
  paired : g.reportsLogprobs = true →
    (view s.consumer).tokens.length = (view s.consumer).logprobs.length + (view s.consumer).midPair.toNat
  ended : (view s.consumer).ended = true →
    s.tokens.items = [] ∧ s.tokens.closed = true ∧ (view s.consumer).midPair = false

end

variable {g : Generation F} {s s' : RequestState F C} {view : C → Received F}

/-- Once the tokens are closed the worker pushes nothing. -/
theorem Bounded.closed_at (bounded : s.Bounded g) (closed : s.tokens.closed = true) : s.worker.owed = 0 := by
  rcases bounded.tokensClosed.mp closed with at_worker | at_worker <;> rw [at_worker] <;> rfl

theorem InLockstep.delivered (lockstep : s.InLockstep g view) : s.Delivered g (view s.consumer) := by
  refine ⟨⟨_, lockstep.tokens⟩, ⟨_, lockstep.logprobs⟩, lockstep.paired, fun ended => ?_⟩
  obtain ⟨drained, closed, between⟩ := lockstep.ended ended
  have tokens : (view s.consumer).tokens = (List.range s.produced).map fun k => (g.samples k).1 := by
    have all := lockstep.tokens
    rwa [drained, List.append_nil, pushedTokens, lockstep.bounded.closed_at closed] at all
  refine ⟨tokens, ?_⟩
  have pushed := lockstep.logprobs
  unfold pushedLogprobs at pushed
  by_cases reports : g.reportsLogprobs = true
  · -- as many log-probs as tokens have come, so none is left in the queue
    have count := congrArg List.length pushed
    have paired := lockstep.paired reports
    rw [tokens, between] at paired
    simp only [reports, if_true, List.length_append, List.length_map, List.length_range, Bool.toNat_false] at count paired
    have none : s.logprobs.items = [] := List.length_eq_zero_iff.mp (by omega)
    rwa [none, List.append_nil] at pushed
  · rw [if_neg reports] at pushed ⊢
    exact (List.append_eq_nil_iff.mp pushed).1

/-! ### The worker -/

theorem counted_pushed (g : Generation F) (s : RequestState F C) :
    (s.counted g).produced = s.produced + 1 ∧ (s.counted g).worker.owed = 0 ∧ (s.counted g).tokens = s.tokens ∧
      (s.counted g).logprobs = s.logprobs ∧ (s.counted g).consumer = s.consumer := by
  simp only [counted]
  split <;> exact ⟨rfl, rfl, rfl, rfl, rfl⟩

variable (g s s') in
/-- Steps that push nothing. -/
theorem pushed_same (produced : s'.produced = s.produced) (owed : s'.worker.owed = s.worker.owed) :
    s'.pushedTokens g = s.pushedTokens g ∧ s'.pushedLogprobs g = s.pushedLogprobs g := by
  simp only [pushedTokens, pushedLogprobs, produced, owed, and_self]

/-- What one step of the worker adds to the queues is what it has pushed more. -/
theorem workerStep_pushed (bounded : s.Bounded g) (stepped : s.workerStep g = some s') :
    (∃ new, s'.tokens.items = s.tokens.items ++ new ∧ s'.pushedTokens g = s.pushedTokens g ++ new) ∧
      (∃ new, s'.logprobs.items = s.logprobs.items ++ new ∧ s'.pushedLogprobs g = s.pushedLogprobs g ++ new) := by
  have silent (t : RequestState F C) (tokens : t.tokens.items = s.tokens.items) (logprobs : t.logprobs.items = s.logprobs.items)
      (produced : t.produced = s.produced) (owed : t.worker.owed = s.worker.owed) :
      (∃ new, t.tokens.items = s.tokens.items ++ new ∧ t.pushedTokens g = s.pushedTokens g ++ new) ∧
        (∃ new, t.logprobs.items = s.logprobs.items ++ new ∧ t.pushedLogprobs g = s.pushedLogprobs g ++ new) := by
    obtain ⟨sameTokens, sameLogprobs⟩ := pushed_same g s t produced owed
    exact ⟨⟨[], by simp [tokens], by simp [sameTokens]⟩, ⟨[], by simp [logprobs], by simp [sameLogprobs]⟩⟩
  unfold workerStep at stepped
  cases at_worker : s.worker with
  | admitting =>
    simp only [at_worker] at stepped
    obtain rfl := Option.some.inj stepped
    exact silent _ rfl rfl rfl (by rw [at_worker]; rfl)
  | consuming =>
    simp only [at_worker] at stepped
    split at stepped
    · obtain rfl := Option.some.inj stepped
      exact silent _ rfl rfl rfl (by rw [at_worker]; rfl)
    · split at stepped <;> obtain rfl := Option.some.inj stepped <;> exact silent _ rfl rfl rfl (by rw [at_worker]; rfl)
  | pushToken =>
    simp only [at_worker] at stepped
    obtain ⟨q, pushed, rest⟩ := Option.bind_eq_some_iff.mp stepped
    have opened : s.tokens.closed = false := by simpa [at_worker] using bounded.tokensClosed
    obtain ⟨_, _, ⟨dropped, _⟩ | ⟨_, items⟩⟩ := SpscQueue.push_spec pushed
    · rw [opened] at dropped; cases dropped
    obtain rfl := Option.some.inj rest
    by_cases reports : g.reportsLogprobs = true
    · rw [if_pos reports]
      refine ⟨⟨[(g.samples s.produced).1], items, ?_⟩, ⟨[], by simp, by simp [pushedLogprobs]⟩⟩
      simp [pushedTokens, at_worker, WorkerAt.owed, List.range_succ]
    · rw [if_neg reports]
      obtain ⟨produced, owed, tokens, logprobs, -⟩ := counted_pushed g { s with tokens := q, worker := .pushToken }
      refine ⟨⟨[(g.samples s.produced).1], by rw [tokens, items], ?_⟩, ⟨[], by simp [logprobs], by simp [pushedLogprobs, reports]⟩⟩
      rw [pushedTokens, pushedTokens, produced, owed, at_worker]
      simp [WorkerAt.owed, List.range_succ]
  | pushLogprob =>
    simp only [at_worker] at stepped
    obtain ⟨q, pushed, rest⟩ := Option.bind_eq_some_iff.mp stepped
    have opened : s.logprobs.closed = false := by simpa [at_worker] using bounded.logprobsClosed
    obtain ⟨_, _, ⟨dropped, _⟩ | ⟨_, items⟩⟩ := SpscQueue.push_spec pushed
    · rw [opened] at dropped; cases dropped
    obtain rfl := Option.some.inj rest
    have reports := bounded.reporting at_worker
    obtain ⟨produced, owed, tokens, logprobs, -⟩ := counted_pushed g { s with logprobs := q, worker := .pushLogprob }
    refine ⟨⟨[], by simp [tokens], ?_⟩, ⟨[(g.samples s.produced).2], by rw [logprobs, items], ?_⟩⟩
    · rw [pushedTokens, pushedTokens, produced, owed, at_worker, List.append_nil]
      rfl
    · simp [pushedLogprobs, reports, produced, List.range_succ]
  | closeTokens =>
    simp only [at_worker] at stepped
    obtain rfl := Option.some.inj stepped
    exact silent _ rfl rfl rfl (by rw [at_worker]; rfl)
  | closeLogprobs =>
    simp only [at_worker] at stepped
    obtain rfl := Option.some.inj stepped
    exact silent _ rfl rfl rfl (by rw [at_worker]; rfl)
  | finished =>
    simp only [at_worker] at stepped
    cases stepped

theorem workerStep_closed (bounded : s.Bounded g) (closed : s.tokens.closed = true) (stepped : s.workerStep g = some s') :
    s'.tokens = s.tokens := by
  unfold workerStep at stepped
  rcases bounded.tokensClosed.mp closed with at_worker | at_worker
  · simp only [at_worker] at stepped
    obtain rfl := Option.some.inj stepped
    rfl
  · simp only [at_worker] at stepped
    cases stepped

theorem InLockstep.worker (lockstep : s.InLockstep g view) (stepped : s.workerStep g = some s') : s'.InLockstep g view := by
  have bounded := workerStep_bounded lockstep.bounded stepped
  obtain ⟨consumer, -, -, stays⟩ := workerStep_frame stepped
  obtain ⟨⟨new, items, pushed⟩, ⟨newLp, itemsLp, pushedLp⟩⟩ := workerStep_pushed lockstep.bounded stepped
  refine ⟨bounded, ?_, ?_, by rw [consumer]; exact lockstep.midPair, by rw [consumer]; exact lockstep.paired, ?_⟩
  · rw [consumer, items, pushed, ← List.append_assoc, lockstep.tokens]
  · rw [consumer, itemsLp, pushedLp, ← List.append_assoc, lockstep.logprobs]
  · rw [consumer]
    intro ended
    obtain ⟨drained, closed, between⟩ := lockstep.ended ended
    rw [workerStep_closed lockstep.bounded closed stepped]
    exact ⟨drained, closed, between⟩

theorem InLockstep.admitFails (lockstep : s.InLockstep g view) (stepped : s.admitFails = some s') : s'.InLockstep g view := by
  have bounded := admitFails_bounded lockstep.bounded stepped
  unfold RequestState.admitFails at stepped
  split at stepped
  next at_worker =>
    obtain rfl := Option.some.inj stepped
    obtain ⟨sameTokens, sameLogprobs⟩ := pushed_same g s
      { s with finishReason := "error", worker := .closeTokens } rfl (by rw [at_worker]; rfl)
    exact ⟨bounded, lockstep.tokens.trans sameTokens.symm, lockstep.logprobs.trans sameLogprobs.symm, lockstep.midPair,
      lockstep.paired, lockstep.ended⟩
  next => cases stepped

/-! ### The consumer -/

/-- What is taken out of a queue is taken in by the consumer. -/
theorem InLockstep.taken (lockstep : s.InLockstep g view) (bounded : s'.Bounded g) (worker : s'.worker = s.worker)
    (produced : s'.produced = s.produced)
    (tokens : (view s'.consumer).tokens ++ s'.tokens.items = (view s.consumer).tokens ++ s.tokens.items)
    (logprobs : (view s'.consumer).logprobs ++ s'.logprobs.items = (view s.consumer).logprobs ++ s.logprobs.items)
    (midPair : (view s'.consumer).midPair = true → g.reportsLogprobs = true)
    (paired : g.reportsLogprobs = true →
      (view s'.consumer).tokens.length = (view s'.consumer).logprobs.length + (view s'.consumer).midPair.toNat)
    (ended : (view s'.consumer).ended = true →
      s'.tokens.items = [] ∧ s'.tokens.closed = true ∧ (view s'.consumer).midPair = false) : s'.InLockstep g view := by
  obtain ⟨sameTokens, sameLogprobs⟩ := pushed_same g _ _ produced (congrArg WorkerAt.owed worker)
  exact ⟨bounded, by rw [tokens, lockstep.tokens, sameTokens], by rw [logprobs, lockstep.logprobs, sameLogprobs], midPair,
    paired, ended⟩

/-- A step of the consumer's own that pops nothing. -/
theorem InLockstep.consumer (lockstep : s.InLockstep g view) {c : C} {cancelled : Bool} (same : view c = view s.consumer) :
    { s with consumer := c, cancelled }.InLockstep g view := by
  refine lockstep.taken (lockstep.bounded.drained rfl rfl le_rfl le_rfl rfl rfl) rfl rfl ?_ ?_ ?_ ?_ ?_
  · rw [same]
  · rw [same]
  · simpa only [same] using lockstep.midPair
  · simpa only [same] using lockstep.paired
  · simpa only [same] using lockstep.ended

/-- A token comes out. -/
theorem InLockstep.popToken (lockstep : s.InLockstep g view) {t : Int} {q : SpscQueue Int} {c : C}
    (popped : s.tokens.pop = some (some t, q)) (before : (view s.consumer).midPair = false)
    (after : view c = { view s.consumer with
      tokens := (view s.consumer).tokens ++ [t], midPair := g.reportsLogprobs, ended := false }) :
    { s with tokens := q, consumer := c }.InLockstep g view := by
  obtain ⟨-, closed, fewer⟩ := SpscQueue.pop_fewer popped
  obtain ⟨_, _, ⟨t', eq, items⟩ | ⟨eq, _⟩⟩ := SpscQueue.pop_spec popped
  · obtain rfl := Option.some.inj eq
    refine lockstep.taken (lockstep.bounded.drained rfl rfl fewer le_rfl closed rfl) rfl rfl ?_ ?_ ?_ ?_ ?_
    · simp [after, items]
    · simp [after]
    · simp [after]
    · intro reports
      have paired := lockstep.paired reports
      rw [before] at paired
      simpa [after, reports] using paired
    · simp [after]
  · cases eq

/-- No token is left: the stream has ended. -/
theorem InLockstep.popEnd (lockstep : s.InLockstep g view) {q : SpscQueue Int} {c : C}
    (popped : s.tokens.pop = some (none, q)) (before : (view s.consumer).midPair = false)
    (after : view c = { view s.consumer with ended := true }) : { s with tokens := q, consumer := c }.InLockstep g view := by
  obtain ⟨-, closed, fewer⟩ := SpscQueue.pop_fewer popped
  obtain ⟨_, _, ⟨t', eq, items⟩ | ⟨-, items, left, isClosed⟩⟩ := SpscQueue.pop_spec popped
  · cases eq
  · refine lockstep.taken (lockstep.bounded.drained rfl rfl fewer le_rfl closed rfl) rfl rfl ?_ ?_ ?_ ?_ ?_
    · simp [after, items, left]
    · simp [after]
    · simpa [after] using lockstep.midPair
    · simpa [after] using lockstep.paired
    · exact fun _ => ⟨left, closed.trans isClosed, by rw [after]; exact before⟩

/-- The log-prob of the token just taken comes out: it was pushed, or will be, before the queue closes. -/
theorem InLockstep.popLogprob (lockstep : s.InLockstep g view) {item : Option (TokenLogprob F)}
    {q : SpscQueue (TokenLogprob F)} {c : C} (popped : s.logprobs.pop = some (item, q))
    (before : (view s.consumer).midPair = true)
    (after : view c = { view s.consumer with
      logprobs := (view s.consumer).logprobs ++ item.toList, midPair := false, ended := false }) :
    { s with logprobs := q, consumer := c }.InLockstep g view := by
  have reports := lockstep.midPair before
  have paired := lockstep.paired reports
  obtain ⟨-, closed, fewer⟩ := SpscQueue.pop_fewer popped
  obtain ⟨_, _, ⟨lp, eq, items⟩ | ⟨-, items, left, isClosed⟩⟩ := SpscQueue.pop_spec popped
  · subst eq
    refine lockstep.taken (lockstep.bounded.drained rfl rfl le_rfl fewer rfl closed) rfl rfl ?_ ?_ ?_ ?_ ?_
    · simp [after]
    · simp [after, items]
    · simp [after]
    · intro _
      rw [before] at paired
      simpa [after] using paired
    · simp [after]
  · -- a closed queue has given as many log-probs as there were tokens
    have countTokens := congrArg List.length lockstep.tokens
    have countLogprobs := congrArg List.length lockstep.logprobs
    have at_worker := lockstep.bounded.logprobsClosed.mp isClosed
    rw [before] at paired
    simp [pushedTokens, pushedLogprobs, reports, items, at_worker, WorkerAt.owed] at countTokens countLogprobs
    simp only [Bool.toNat_true] at paired
    omega

/-! ### Nobody waits for the other -/

/-- With room for one item in each queue, a worker that waits has left the consumer something to take. -/
theorem InLockstep.unblocked (lockstep : s.InLockstep g view) (tokensRoom : 1 ≤ s.tokens.capacity)
    (logprobsRoom : 1 ≤ s.logprobs.capacity) (blocked : s.WorkerBlocked) :
    if (view s.consumer).midPair = true then s.logprobs.items ≠ [] else s.tokens.items ≠ [] := by
  have countTokens := congrArg List.length lockstep.tokens
  have countLogprobs := congrArg List.length lockstep.logprobs
  simp only [pushedTokens, pushedLogprobs, List.length_append, List.length_map, List.length_range] at countTokens countLogprobs
  rcases blocked with ⟨at_worker, -, full⟩ | ⟨at_worker, -, full⟩
  · have owed : s.worker.owed = 0 := by rw [at_worker]; rfl
    split
    next between =>
      have reports := lockstep.midPair between
      have paired := lockstep.paired reports
      rw [if_pos reports, List.length_map, List.length_range] at countLogprobs
      rw [between, Bool.toNat_true] at paired
      exact List.ne_nil_of_length_pos (by omega)
    next => exact List.ne_nil_of_length_pos (by omega)
  · have reports := lockstep.bounded.reporting at_worker
    have paired := lockstep.paired reports
    have owed : s.worker.owed = 1 := by rw [at_worker]; rfl
    rw [if_pos reports, List.length_map, List.length_range] at countLogprobs
    split
    next => exact List.ne_nil_of_length_pos (by omega)
    next together =>
      rw [Bool.not_eq_true] at together
      rw [together, Bool.toNat_false] at paired
      exact List.ne_nil_of_length_pos (by omega)

theorem pop_isSome {α : Type} {q : SpscQueue α} (h : q.items ≠ [] ∨ q.closed = true) : q.pop.isSome = true := by
  rw [Option.isSome_iff_ne_none, Ne, SpscQueue.pop_eq_none]
  rintro ⟨none, opened⟩
  rcases h with h | h
  · exact h none
  · simp [opened] at h

/-- The worker goes on, or the consumer's next pop does, until both queues are closed. -/
theorem InLockstep.progress (lockstep : s.InLockstep g view) (tokensRoom : 1 ≤ s.tokens.capacity)
    (logprobsRoom : 1 ≤ s.logprobs.capacity) : (s.workerStep g).isSome = true ∨
      if (view s.consumer).midPair = true then s.logprobs.pop.isSome = true else s.tokens.pop.isSome = true := by
  cases stepped : s.workerStep g with
  | some s' => exact .inl rfl
  | none =>
    refine .inr ?_
    by_cases finished : s.worker = .finished
    · have tokensClosed := lockstep.bounded.tokensClosed.mpr (.inr finished)
      have logprobsClosed := lockstep.bounded.logprobsClosed.mpr finished
      split
      · exact pop_isSome (.inr logprobsClosed)
      · exact pop_isSome (.inr tokensClosed)
    · have left := lockstep.unblocked tokensRoom logprobsRoom ((workerBlocked_iff g s).mpr ⟨stepped, finished⟩)
      split at left
      next between => rw [if_pos between]; exact pop_isSome (.inl left)
      next together => rw [if_neg together]; exact pop_isSome (.inl left)

/-- A consumer that has seen the end leaves the worker only its own last step. -/
theorem InLockstep.ended_progress (lockstep : s.InLockstep g view) (ended : (view s.consumer).ended = true) :
    (s.workerStep g).isSome = true ∨ s.worker = .finished := by
  rcases lockstep.bounded.tokensClosed.mp (lockstep.ended ended).2.1 with at_worker | at_worker
  · exact .inl (by simp [workerStep, at_worker])
  · exact .inr at_worker

end RequestState

end Mlxforge
