import Mlxforge.Capi.RequestHandle
import Mlxforge.Scheduler.Lockstep
import Mlxforge.Server.Stream

/-!
The three drain loops that pop log-probs: `request_next`, `run_blocking` and `stream_chat`.
-/

namespace Mlxforge

open Transition RequestState

variable {F : Type}

/-! ### The blocking handler -/

inductive BlockingAt where
  | popToken | popLogprob | drained
  deriving DecidableEq, Repr

/-- The drain loop of `run_blocking`. -/
structure BlockingHandler (F : Type) where
  location : BlockingAt := .popToken
  out : List Int := []
  outLp : List (TokenLogprob F) := []

abbrev BlockingState (F : Type) := RequestState F (BlockingHandler F)

inductive BlockingAction where
  | worker | admitFails | pop

namespace BlockingState

/-- `want_lp` is `req->params.top_logprobs >= 0`. -/
def popStep (wantLp : Bool) (s : BlockingState F) : Option (BlockingState F) :=
  let h := s.consumer
  match h.location with
  | .popToken => do
    let (item, tokens) ← s.tokens.pop
    let s := { s with tokens }
    return match item with
      | some tok =>
        let h := { h with out := h.out ++ [tok] }
        { s with consumer := { h with location := if wantLp then .popLogprob else .popToken } }
      | none => { s with consumer := { h with location := .drained } }
  | .popLogprob => do
    let (item, logprobs) ← s.logprobs.pop
    return { s with logprobs, consumer := { h with outLp := h.outLp ++ item.toList, location := .popToken } }
  | .drained => none

def blockingStep (g : Generation F) (s : BlockingState F) : BlockingAction → Option (BlockingState F)
  | .worker => s.workerStep g
  | .admitFails => s.admitFails
  | .pop => popStep g.reportsLogprobs s

end BlockingState

/-! ### What each loop has received -/

def BlockingHandler.received (h : BlockingHandler F) : Received F :=
  { tokens := h.out, logprobs := h.outLp, midPair := h.location == .popLogprob, ended := h.location == .drained }

def RequestHandle.taken (h : RequestHandle F) : Received F :=
  { tokens := h.received, logprobs := h.logprobs, midPair := h.location == .nextLogprob, ended := h.done }

def StreamHandler.taken (h : StreamHandler F) : Received F where
  tokens := h.received
  logprobs := h.sentLp ++ h.pendingLp
  midPair := match h.location with
    | .popLogprob => true
    | _ => false
  ended := match h.location with
    | .finishing | .done => true
    | _ => false

/-- In every state of every run the consumer has the tokens and log-probs pushed so far, in step, and has seen the end
only with all of them; and until the worker and the consumer are both through, one of them can go on. -/
structure DeliversAll {C α : Type} (g : Generation F) (view : C → Received F)
    (step : RequestState F C → α → Option (RequestState F C)) (ok : RequestState F C → α → Prop)
    (ready : RequestState F C → Prop) (start : RequestState F C) : Prop where
  delivered : ∀ s, Reachable step ok start s → s.Delivered g (view s.consumer)
  progress : ∀ s, Reachable step ok start s → (s.workerStep g).isSome = true ∨ ready s ∨
    (s.worker = .finished ∧ (view s.consumer).ended = true)

/-- A request with queues of any capacity, before the worker admits it. -/
def enqueued {C : Type} (tokens logprobs : Nat) (consumer : C) : RequestState F C :=
  { tokens := { capacity := tokens }, logprobs := { capacity := logprobs }, consumer }

section
variable {C : Type} {g : Generation F} {view : C → Received F} {s s' : RequestState F C} {tokens logprobs : Nat}

/-- The invariant of a run, whichever loop drains the queues. -/
structure Draining (g : Generation F) (view : C → Received F) (tokens logprobs : Nat) (s : RequestState F C) : Prop where
  lockstep : s.InLockstep g view
  tokensCapacity : s.tokens.capacity = tokens
  logprobsCapacity : s.logprobs.capacity = logprobs

theorem enqueued_draining {c : C} (fresh : view c = { tokens := [], logprobs := [], midPair := false, ended := false }) :
    Draining g view tokens logprobs (enqueued tokens logprobs c) := by
  refine ⟨⟨⟨?_, ?_, ?_, ?_, ?_, ?_, ?_⟩, ?_, ?_, ?_, ?_, ?_⟩, rfl, rfl⟩ <;>
    simp [enqueued, fresh, pushedTokens, pushedLogprobs, WorkerAt.owed]

theorem Draining.worker (d : Draining g view tokens logprobs s) (stepped : s.workerStep g = some s') :
    Draining g view tokens logprobs s' := by
  obtain ⟨-, tokensSame, logprobsSame, -⟩ := workerStep_frame stepped
  exact ⟨d.lockstep.worker stepped, tokensSame.trans d.tokensCapacity, logprobsSame.trans d.logprobsCapacity⟩

theorem Draining.admitFails (d : Draining g view tokens logprobs s) (stepped : s.admitFails = some s') :
    Draining g view tokens logprobs s' := by
  have lockstep := d.lockstep.admitFails stepped
  unfold RequestState.admitFails at stepped
  split at stepped
  · obtain rfl := Option.some.inj stepped
    exact ⟨lockstep, d.tokensCapacity, d.logprobsCapacity⟩
  · cases stepped

theorem admitFails_consumer (stepped : s.admitFails = some s') : s'.consumer = s.consumer := by
  unfold RequestState.admitFails at stepped
  split at stepped
  · obtain rfl := Option.some.inj stepped
    rfl
  · cases stepped

/-- A step of the consumer's own. -/
theorem Draining.consumer (d : Draining g view tokens logprobs s) {c : C} {cancelled : Bool}
    (same : view c = view s.consumer) : Draining g view tokens logprobs { s with consumer := c, cancelled } :=
  ⟨d.lockstep.consumer same, d.tokensCapacity, d.logprobsCapacity⟩

theorem Draining.progress (d : Draining g view tokens logprobs s) (tokensRoom : 1 ≤ tokens) (logprobsRoom : 1 ≤ logprobs) :
    (s.workerStep g).isSome = true ∨
      if (view s.consumer).midPair = true then s.logprobs.pop.isSome = true else s.tokens.pop.isSome = true :=
  d.lockstep.progress (by rw [d.tokensCapacity]; exact tokensRoom) (by rw [d.logprobsCapacity]; exact logprobsRoom)

end

/-! ### `run_blocking` -/

namespace BlockingState

variable {g : Generation F} {s s' : BlockingState F} {tokens logprobs : Nat}

theorem popStep_draining (d : Draining g BlockingHandler.received tokens logprobs s)
    (stepped : popStep g.reportsLogprobs s = some s') : Draining g BlockingHandler.received tokens logprobs s' := by
  unfold popStep at stepped
  cases location : s.consumer.location with
  | popToken =>
    simp only [location] at stepped
    obtain ⟨⟨item, q⟩, popped, rest⟩ := Option.bind_eq_some_iff.mp stepped
    obtain ⟨capacity, -, -⟩ := SpscQueue.pop_fewer popped
    obtain rfl := Option.some.inj rest
    cases item with
    | some tok =>
      refine ⟨d.lockstep.popToken popped (by simp [BlockingHandler.received, location]) ?_,
        capacity.trans d.tokensCapacity, d.logprobsCapacity⟩
      cases g.reportsLogprobs <;> simp [BlockingHandler.received]
    | none =>
      refine ⟨d.lockstep.popEnd popped (by simp [BlockingHandler.received, location]) ?_,
        capacity.trans d.tokensCapacity, d.logprobsCapacity⟩
      simp [BlockingHandler.received, location]
  | popLogprob =>
    simp only [location] at stepped
    obtain ⟨⟨item, q⟩, popped, rest⟩ := Option.bind_eq_some_iff.mp stepped
    obtain ⟨capacity, -, -⟩ := SpscQueue.pop_fewer popped
    obtain rfl := Option.some.inj rest
    refine ⟨d.lockstep.popLogprob popped (by simp [BlockingHandler.received, location]) ?_, d.tokensCapacity,
      capacity.trans d.logprobsCapacity⟩
    simp [BlockingHandler.received]
  | drained => simp [location] at stepped

theorem popStep_isSome (wantLp : Bool) (open' : s.consumer.location ≠ .drained)
    (h : if s.consumer.received.midPair = true then s.logprobs.pop.isSome = true else s.tokens.pop.isSome = true) :
    (popStep wantLp s).isSome = true := by
  unfold popStep
  cases location : s.consumer.location with
  | drained => exact absurd location open'
  | popToken =>
    obtain ⟨r, popped⟩ := Option.isSome_iff_exists.mp (by simpa [BlockingHandler.received, location] using h)
    simp [location, popped]
  | popLogprob =>
    obtain ⟨r, popped⟩ := Option.isSome_iff_exists.mp (by simpa [BlockingHandler.received, location] using h)
    simp [location, popped]

theorem delivers (tokensRoom : 1 ≤ tokens) (logprobsRoom : 1 ≤ logprobs) :
    DeliversAll g BlockingHandler.received (blockingStep g) Free (fun s => (popStep g.reportsLogprobs s).isSome = true)
      (enqueued tokens logprobs {}) := by
  have draining {s} (reached : Reachable (blockingStep g) Free (enqueued tokens logprobs {}) s) :
      Draining g BlockingHandler.received tokens logprobs s := by
    refine reached.invariant (enqueued_draining rfl) fun {s action t} d _ stepped => ?_
    cases action with
    | worker => exact d.worker stepped
    | admitFails => exact d.admitFails stepped
    | pop => exact popStep_draining d stepped
  refine ⟨fun s reached => (draining reached).lockstep.delivered, fun s reached => ?_⟩
  have d := draining reached
  by_cases drained : s.consumer.location = .drained
  · have ended : s.consumer.received.ended = true := by simp [BlockingHandler.received, drained]
    rcases d.lockstep.ended_progress ended with worker | finished
    · exact .inl worker
    · exact .inr (.inr ⟨finished, ended⟩)
  · exact (d.progress tokensRoom logprobsRoom).imp_right fun room => .inl (popStep_isSome _ drained room)

end BlockingState

/-! ### `request_next` -/

namespace ApiState

variable {g : Generation F} {completes : List Int → Bool} {s s' : ApiState F} {tokens logprobs : Nat}

/-- The handle is not being freed, and its end means that it no longer pops. -/
structure Serving (g : Generation F) (tokens logprobs : Nat) (s : ApiState F) : Prop where
  draining : Draining g RequestHandle.taken tokens logprobs s
  wants : s.consumer.wantLogprobs = g.reportsLogprobs
  location : s.consumer.location = .idle ∨ s.consumer.done = false ∧
    (s.consumer.location = .nextToken ∨ s.consumer.location = .nextLogprob)

variable (completes) in
theorem delivered_taken (h : RequestHandle F) (opened : h.done = false) :
    (h.delivered completes).taken = { h.taken with midPair := false } ∧
      (h.delivered completes).wantLogprobs = h.wantLogprobs ∧
      ((h.delivered completes).location = .idle ∨ (h.delivered completes).done = false ∧
        ((h.delivered completes).location = .nextToken ∨ (h.delivered completes).location = .nextLogprob)) := by
  unfold RequestHandle.delivered
  cases completes h.received <;> simp [RequestHandle.taken, opened]

theorem popStep_serving (v : Serving g tokens logprobs s) (stepped : popStep completes s = some s') :
    Serving g tokens logprobs s' := by
  obtain ⟨d, wants, at_pop⟩ := v
  unfold popStep at stepped
  cases location : s.consumer.location with
  | nextToken =>
    have opened : s.consumer.done = false := by simpa [location] using at_pop
    simp only [location] at stepped
    obtain ⟨⟨item, q⟩, popped, rest⟩ := Option.bind_eq_some_iff.mp stepped
    obtain ⟨capacity, -, -⟩ := SpscQueue.pop_fewer popped
    obtain rfl := Option.some.inj rest
    have between : s.consumer.taken.midPair = false := by simp [RequestHandle.taken, location]
    cases item with
    | some t =>
      dsimp only
      by_cases reports : g.reportsLogprobs = true
      · rw [if_pos (wants.trans reports)]
        refine ⟨⟨d.lockstep.popToken popped between ?_, capacity.trans d.tokensCapacity, d.logprobsCapacity⟩, wants,
          .inr ⟨opened, .inr rfl⟩⟩
        simp [RequestHandle.taken, reports, opened]
      · rw [if_neg (by simpa [wants] using reports)]
        obtain ⟨taken, wants', location'⟩ := delivered_taken completes
          { s.consumer with location := .nextToken, received := s.consumer.received ++ [t] } opened
        refine ⟨⟨d.lockstep.popToken popped between ?_, capacity.trans d.tokensCapacity, d.logprobsCapacity⟩,
          wants'.trans wants, location'⟩
        rw [taken]
        simp [RequestHandle.taken, opened, reports]
    | none =>
      refine ⟨⟨d.lockstep.popEnd popped between ?_, capacity.trans d.tokensCapacity, d.logprobsCapacity⟩, wants, .inl rfl⟩
      simp [RequestHandle.taken, location]
  | nextLogprob =>
    have opened : s.consumer.done = false := by simpa [location] using at_pop
    simp only [location] at stepped
    obtain ⟨⟨item, q⟩, popped, rest⟩ := Option.bind_eq_some_iff.mp stepped
    obtain ⟨capacity, -, -⟩ := SpscQueue.pop_fewer popped
    obtain rfl := Option.some.inj rest
    obtain ⟨taken, wants', location'⟩ := delivered_taken completes
      { s.consumer with location := .nextLogprob, logprobs := s.consumer.logprobs ++ item.toList } opened
    refine ⟨⟨d.lockstep.popLogprob popped (by simp [RequestHandle.taken, location]) ?_, d.tokensCapacity,
      capacity.trans d.logprobsCapacity⟩, wants'.trans wants, location'⟩
    rw [taken]
    simp [RequestHandle.taken, opened]
  | idle | freed => simp [location] at stepped
  | freeToken | freeLogprob => simp [location] at at_pop

/-- The consumer's own next step: a call, or a pop inside one. -/
def Ready (completes : List Int → Bool) (s : ApiState F) : Prop :=
  s.consumer.location = .idle ∧ s.consumer.done = false ∨ (popStep completes s).isSome = true

theorem ready_of_open (v : Serving g tokens logprobs s) (opened : s.consumer.done = false)
    (h : if s.consumer.taken.midPair = true then s.logprobs.pop.isSome = true else s.tokens.pop.isSome = true) :
    Ready completes s := by
  rcases v.location with location | ⟨-, location | location⟩
  · exact .inl ⟨location, opened⟩
  · obtain ⟨r, popped⟩ := Option.isSome_iff_exists.mp (by simpa [RequestHandle.taken, location] using h)
    exact .inr (by simp [popStep, location, popped])
  · obtain ⟨r, popped⟩ := Option.isSome_iff_exists.mp (by simpa [RequestHandle.taken, location] using h)
    exact .inr (by simp [popStep, location, popped])

/-- Every consumer that only calls `request_next` and `request_cancel`. -/
theorem delivers (tokensRoom : 1 ≤ tokens) (logprobsRoom : 1 ≤ logprobs) :
    DeliversAll g RequestHandle.taken (apiStep g completes) (fun _ action => action ≠ .free) (Ready completes)
      (enqueued tokens logprobs (submitIds g)) := by
  have serving {s} (reached : Reachable (apiStep g completes) (fun _ action => action ≠ .free)
      (enqueued tokens logprobs (submitIds g)) s) : Serving g tokens logprobs s := by
    refine reached.invariant ⟨enqueued_draining rfl, rfl, .inl rfl⟩ fun {s action t} v allowed stepped => ?_
    cases action with
    | worker =>
      have frame := workerStep_frame stepped
      exact ⟨v.draining.worker stepped, by rw [frame.1]; exact v.wants, by rw [frame.1]; exact v.location⟩
    | admitFails =>
      have frame := admitFails_consumer stepped
      exact ⟨v.draining.admitFails stepped, by rw [frame]; exact v.wants, by rw [frame]; exact v.location⟩
    | next =>
      simp only [apiStep] at stepped
      split at stepped
      next idle =>
        obtain rfl := Option.some.inj stepped
        split
        next => exact ⟨v.draining.consumer rfl, v.wants, .inl idle⟩
        next opened =>
          exact ⟨v.draining.consumer (by simp [RequestHandle.taken, idle]), v.wants,
            .inr ⟨Bool.eq_false_iff.mpr opened, .inl rfl⟩⟩
      next => cases stepped
    | cancel =>
      simp only [apiStep] at stepped
      split at stepped
      · cases stepped
      · obtain rfl := Option.some.inj stepped
        exact ⟨v.draining.consumer rfl, v.wants, v.location⟩
    | free => exact absurd rfl allowed
    | pop => exact popStep_serving v stepped
  refine ⟨fun s reached => (serving reached).draining.lockstep.delivered, fun s reached => ?_⟩
  have v := serving reached
  cases done : s.consumer.done with
  | true =>
    have ended : s.consumer.taken.ended = true := done
    rcases v.draining.lockstep.ended_progress ended with worker | finished
    · exact .inl worker
    · exact .inr (.inr ⟨finished, ended⟩)
  | false => exact (v.draining.progress tokensRoom logprobsRoom).imp_right fun room => .inl (ready_of_open v done room)

end ApiState

/-! ### `stream_chat` -/

namespace StreamState

variable {g : Generation F} {route : StreamRoute} {frames : List Int → Nat} {s s' : StreamState F} {tokens logprobs : Nat}

theorem emit_taken (n : Nat) (h : StreamHandler F) : (emit n h).taken = { h.taken with midPair := false, ended := false } := by
  unfold emit
  split <;> simp [StreamHandler.taken]

theorem popStep_draining (wants : route.wantLogprobs = g.reportsLogprobs)
    (d : Draining g StreamHandler.taken tokens logprobs s) (stepped : popStep route frames s = some s') :
    Draining g StreamHandler.taken tokens logprobs s' := by
  unfold popStep at stepped
  cases location : s.consumer.location with
  | popToken =>
    simp only [location] at stepped
    obtain ⟨⟨item, q⟩, popped, rest⟩ := Option.bind_eq_some_iff.mp stepped
    obtain ⟨capacity, -, -⟩ := SpscQueue.pop_fewer popped
    obtain rfl := Option.some.inj rest
    have between : s.consumer.taken.midPair = false := by simp [StreamHandler.taken, location]
    cases item with
    | some t =>
      dsimp only
      refine ⟨d.lockstep.popToken popped between ?_, capacity.trans d.tokensCapacity, d.logprobsCapacity⟩
      rw [wants]
      split
      next reports => simp [StreamHandler.taken, reports]
      next quiet =>
        rw [emit_taken]
        simp [StreamHandler.taken, quiet]
    | none =>
      refine ⟨d.lockstep.popEnd popped between ?_, capacity.trans d.tokensCapacity, d.logprobsCapacity⟩
      simp [StreamHandler.taken, location]
  | popLogprob =>
    simp only [location] at stepped
    obtain ⟨⟨item, q⟩, popped, rest⟩ := Option.bind_eq_some_iff.mp stepped
    obtain ⟨capacity, -, -⟩ := SpscQueue.pop_fewer popped
    obtain rfl := Option.some.inj rest
    refine ⟨d.lockstep.popLogprob popped (by simp [StreamHandler.taken, location]) ?_, d.tokensCapacity,
      capacity.trans d.logprobsCapacity⟩
    rw [emit_taken]
    simp [StreamHandler.taken, List.append_assoc]
  | writing | finishing | stopped | done => simp [location] at stepped

theorem sent_draining (d : Draining g StreamHandler.taken tokens logprobs s) (more : HandlerAt)
    (same : StreamHandler.taken { s.consumer with location := more } = s.consumer.taken) :
    Draining g StreamHandler.taken tokens logprobs (s.sent more .written) :=
  d.consumer same

/-- The client takes every frame. -/
def Written (_ : StreamState F) (action : StreamAction) : Prop := ∀ outcome, action = .write outcome → outcome = .written

/-- The handler's own next step: a frame, or a pop. -/
def Ready (route : StreamRoute) (frames : List Int → Nat) (s : StreamState F) : Prop :=
  (writeStep s .written).isSome = true ∨ (popStep route frames s).isSome = true

theorem resume_cases (n : Nat) : resume n = .popToken ∨ ∃ k, resume n = .writing k := by
  unfold resume
  split
  · exact .inl rfl
  · exact .inr ⟨n, rfl⟩

theorem streamStep_draining {action : StreamAction} (wants : route.wantLogprobs = g.reportsLogprobs)
    (d : Draining g StreamHandler.taken tokens logprobs s) (attends : s.consumer.location ≠ .stopped)
    (allowed : Written s action) (stepped : streamStep g route frames s action = some s') :
    Draining g StreamHandler.taken tokens logprobs s' ∧ s'.consumer.location ≠ .stopped := by
  cases action with
  | worker => exact ⟨d.worker stepped, by rw [(workerStep_frame stepped).1]; exact attends⟩
  | admitFails => exact ⟨d.admitFails stepped, by rw [admitFails_consumer stepped]; exact attends⟩
  | pop =>
    refine ⟨popStep_draining wants d stepped, ?_⟩
    simp only [streamStep, popStep] at stepped
    split at stepped
    · obtain ⟨⟨item, q⟩, -, rest⟩ := Option.bind_eq_some_iff.mp stepped
      obtain rfl := Option.some.inj rest
      cases item with
      | some t =>
        dsimp only [emit]
        split
        · simp
        · split <;> simp
      | none => simp
    · obtain ⟨⟨item, q⟩, -, rest⟩ := Option.bind_eq_some_iff.mp stepped
      obtain rfl := Option.some.inj rest
      dsimp only [emit]
      split <;> simp
    · cases stepped
  | write outcome =>
    obtain rfl := allowed outcome rfl
    simp only [streamStep, writeStep] at stepped
    split at stepped
    next n location =>
      obtain rfl := Option.some.inj stepped
      refine ⟨sent_draining d _ ?_, ?_⟩
      · rcases resume_cases (n - 1) with more | ⟨k, more⟩ <;> simp [StreamHandler.taken, location, more]
      · rcases resume_cases (n - 1) with more | ⟨k, more⟩ <;> simp [sent, more]
    next location =>
      obtain rfl := Option.some.inj stepped
      exact ⟨sent_draining d _ (by simp [StreamHandler.taken, location]), by simp [sent]⟩
    next => cases stepped

theorem delivers (wants : route.wantLogprobs = g.reportsLogprobs) (tokensRoom : 1 ≤ tokens) (logprobsRoom : 1 ≤ logprobs) :
    DeliversAll g StreamHandler.taken (streamStep g route frames) Written (Ready route frames)
      (enqueued tokens logprobs { location := .writing 1 }) := by
  have draining {s} (reached : Reachable (streamStep g route frames) Written
      (enqueued tokens logprobs { location := .writing 1 }) s) :
      Draining g StreamHandler.taken tokens logprobs s ∧ s.consumer.location ≠ .stopped := by
    refine reached.invariant (P := fun s => Draining g StreamHandler.taken tokens logprobs s ∧
      s.consumer.location ≠ .stopped) ⟨enqueued_draining rfl, by simp [enqueued]⟩ fun d allowed stepped => ?_
    exact streamStep_draining wants d.1 d.2 allowed stepped
  refine ⟨fun s reached => (draining reached).1.lockstep.delivered, fun s reached => ?_⟩
  obtain ⟨d, attends⟩ := draining reached
  cases location : s.consumer.location with
  | writing n => exact .inr (.inl (.inl (by simp [writeStep, location])))
  | finishing => exact .inr (.inl (.inl (by simp [writeStep, location])))
  | stopped => exact absurd location attends
  | done =>
    have ended : s.consumer.taken.ended = true := by simp [StreamHandler.taken, location]
    rcases d.lockstep.ended_progress ended with worker | finished
    · exact .inl worker
    · exact .inr (.inr ⟨finished, ended⟩)
  | popToken =>
    refine (d.progress tokensRoom logprobsRoom).imp_right fun room => .inl (.inr ?_)
    obtain ⟨r, popped⟩ := Option.isSome_iff_exists.mp (by simpa [StreamHandler.taken, location] using room)
    simp [popStep, location, popped]
  | popLogprob =>
    refine (d.progress tokensRoom logprobsRoom).imp_right fun room => .inl (.inr ?_)
    obtain ⟨r, popped⟩ := Option.isSome_iff_exists.mp (by simpa [StreamHandler.taken, location] using room)
    simp [popStep, location, popped]

end StreamState

/-- Whatever the room in the queues, each of the three loops receives the tokens pushed and their log-probs in
lockstep. -/
theorem delivered_in_lockstep (samples : Nat → Int × TokenLogprob F) (eosIds : List Int) (maxTokens topLogprobs : Int)
    (completes : List Int → Bool) (frames : List Int → Nat) (logprobs : Bool) (images : Bool) {tokensRoom logprobsRoom : Nat}
    (room : 1 ≤ tokensRoom) (lpRoom : 1 ≤ logprobsRoom) :
    let g : Generation F := { samples, eosIds, maxTokens, topLogprobs }
    let route := StreamRoute.chat logprobs topLogprobs images
    let streamed := route.makeRequest samples eosIds maxTokens
    DeliversAll g RequestHandle.taken (ApiState.apiStep g completes) (fun _ action => action ≠ .free) (ApiState.Ready completes)
      (enqueued tokensRoom logprobsRoom (submitIds g)) ∧
    DeliversAll g BlockingHandler.received (BlockingState.blockingStep g) Free
      (fun s => (BlockingState.popStep g.reportsLogprobs s).isSome = true) (enqueued tokensRoom logprobsRoom {}) ∧
    DeliversAll streamed StreamHandler.taken (StreamState.streamStep streamed route frames) StreamState.Written
      (StreamState.Ready route frames) (enqueued tokensRoom logprobsRoom { location := .writing 1 }) :=
  ⟨ApiState.delivers room lpRoom, BlockingState.delivers room lpRoom, StreamState.delivers rfl room lpRoom⟩

/-- Queues of one item each. -/
theorem delivered_through_one_slot :
    let g : Generation Int := { samples := fun k => (k, ⟨k, -1, []⟩), eosIds := [2], maxTokens := 5, topLogprobs := 0 }
    DeliversAll g BlockingHandler.received (BlockingState.blockingStep g) Free
      (fun s => (BlockingState.popStep g.reportsLogprobs s).isSome = true) (enqueued 1 1 {}) :=
  (delivered_in_lockstep (fun k => (k, ⟨k, (-1 : Int), []⟩)) [2] 5 0 (fun _ => true) (fun _ => 1) true false
    (Nat.le_refl 1) (Nat.le_refl 1)).2.1

end Mlxforge
