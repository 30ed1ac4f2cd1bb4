import Mlxforge.Scheduler.RequestQueues

/-!
A streamed HTTP response: the handler of `stream_chat` or `stream_messages` pops a request's tokens and writes
frames to a client that may go away.
-/

namespace Mlxforge

open Transition

variable {F : Type}

/-- The two streaming routes, with what the parsed request says about log-probs. -/
inductive StreamRoute where
  | chat (logprobs : Bool) (topLogprobs : Int) (hasImages : Bool)
  | messages

/-- `make_request`: log-probs only when asked for, and never with images. The messages route has no such
parameter. -/
def StreamRoute.topLogprobs : StreamRoute → Int
  | .chat logprobs topLogprobs hasImages => if logprobs && !hasImages then topLogprobs else -1
  | .messages => -1

def StreamRoute.makeRequest (route : StreamRoute) (samples : Nat → Int × TokenLogprob F) (eosIds : List Int)
    (maxTokens : Int) : Generation F where
  samples := samples
  eosIds := eosIds
  maxTokens := maxTokens
  topLogprobs := route.topLogprobs

/-- `want_lp`: only `stream_chat` pops log-probs. -/
def StreamRoute.wantLogprobs : StreamRoute → Bool
  | .messages => false
  | route => decide (0 ≤ route.topLogprobs)

inductive HandlerAt where
  /-- Inside `sink.write`, or serializing for it, with so many frames to go. -/
  | writing (frames : Nat)
  | popToken | popLogprob
  /-- The frames after the last token. -/
  | finishing
  /-- Left early: a write failed or a chunk could not be serialized. -/
  | stopped
  | done

structure StreamHandler (F : Type) where
  location : HandlerAt
  received : List Int := []
  pendingLp : List (TokenLogprob F) := []
  /-- The log-probs attached to the content frames so far. -/
  sentLp : List (TokenLogprob F) := []

abbrev StreamState (F : Type) := RequestState F (StreamHandler F)

/-- What became of a frame. -/
inductive SinkOutcome where
  | written | failed | threw

inductive StreamAction where
  | worker | admitFails | pop
  | write (outcome : SinkOutcome)

namespace StreamState

/-- On to the next token, or to the frames to be written before it. -/
def resume (frames : Nat) : HandlerAt := if frames = 0 then .popToken else .writing frames

/-- A content frame takes the pending log-probs with it. -/
def emit (frames : Nat) (h : StreamHandler F) : StreamHandler F :=
  if frames = 0 then { h with location := .popToken }
  else { h with location := .writing frames, sentLp := h.sentLp ++ h.pendingLp, pendingLp := [] }

/-- Where the handler pops; `frames` is how many chunks the ids received so far give rise to at once (none while
the detokenizer or the tool-call buffer holds text back). -/
def popStep (route : StreamRoute) (frames : List Int → Nat) (s : StreamState F) : Option (StreamState F) :=
  let h := s.consumer
  match h.location with
  | .popToken => do
    let (item, tokens) ← s.tokens.pop
    let s := { s with tokens }
    return match item with
      | some t =>
        let h := { h with received := h.received ++ [t] }
        { s with consumer := if route.wantLogprobs then { h with location := .popLogprob } else emit (frames h.received) h }
      | none => { s with consumer := { h with location := .finishing } }
  | .popLogprob => do
    let (item, logprobs) ← s.logprobs.pop
    return { s with
      logprobs
      consumer := emit (frames h.received) { h with pendingLp := h.pendingLp ++ item.toList } }
  | _ => none

/-- A frame sent with `more` to follow: a failed write marks the request cancelled, and either failure ends the
handler. -/
def sent (s : StreamState F) (more : HandlerAt) : SinkOutcome → StreamState F
  | .written => { s with consumer := { s.consumer with location := more } }
  | .failed => { s with cancelled := true, consumer := { s.consumer with location := .stopped } }
  | .threw => { s with consumer := { s.consumer with location := .stopped } }

def writeStep (s : StreamState F) (outcome : SinkOutcome) : Option (StreamState F) :=
  match s.consumer.location with
  | .writing frames => some (s.sent (resume (frames - 1)) outcome)
  | .finishing => some (s.sent .done outcome)
  | _ => none

def streamStep (g : Generation F) (route : StreamRoute) (frames : List Int → Nat) (s : StreamState F) :
    StreamAction → Option (StreamState F)
  | .worker => s.workerStep g
  | .admitFails => s.admitFails
  | .pop => popStep route frames s
  | .write outcome => s.writeStep outcome

/-- Both handlers begin by writing a frame: the role chunk or `message_start`. -/
def accepted : StreamState F := { consumer := { location := .writing 1 } }

/-- Nobody pops any more: the handler has left, or waits for the other queue. -/
def Unattended (s : StreamState F) : Prop :=
  match s.consumer.location with
  | .popToken => s.tokens.items = [] ∧ s.tokens.closed = false
  | .popLogprob => s.logprobs.items = [] ∧ s.logprobs.closed = false
  | .stopped | .done => True
  | .writing _ | .finishing => False

def Stalled (s : StreamState F) : Prop := s.WorkerBlocked ∧ s.Unattended

variable {g : Generation F} {route : StreamRoute} {frames : List Int → Nat} {s s' : StreamState F}

structure Sound (g : Generation F) (s : StreamState F) : Prop where
  bounded : s.Bounded g
  tokensCapacity : s.tokens.capacity = 1024
  logprobsCapacity : s.logprobs.capacity = 1024

theorem accepted_sound (g : Generation F) : Sound g accepted where
  bounded := ⟨fun _ => ⟨by simp [accepted], by simp [accepted]⟩, by simp [accepted], by simp [accepted],
    by simp [accepted], by simp [accepted], by simp [accepted], by simp [accepted]⟩
  tokensCapacity := rfl
  logprobsCapacity := rfl

theorem popStep_sound (sound : s.Sound g) (stepped : popStep route frames s = some s') : s'.Sound g := by
  obtain ⟨bounded, tokensCapacity, logprobsCapacity⟩ := sound
  unfold popStep at stepped
  cases location : s.consumer.location with
  | popToken =>
    simp only [location] at stepped
    obtain ⟨⟨item, q⟩, popped, rest⟩ := Option.bind_eq_some_iff.mp stepped
    obtain ⟨capacity, closed, fewer⟩ := SpscQueue.pop_fewer popped
    obtain rfl := Option.some.inj rest
    cases item <;>
      exact ⟨bounded.drained rfl rfl fewer le_rfl closed rfl, capacity.trans tokensCapacity, logprobsCapacity⟩
  | popLogprob =>
    simp only [location] at stepped
    obtain ⟨⟨item, q⟩, popped, rest⟩ := Option.bind_eq_some_iff.mp stepped
    obtain ⟨capacity, closed, fewer⟩ := SpscQueue.pop_fewer popped
    obtain rfl := Option.some.inj rest
    exact ⟨bounded.drained rfl rfl le_rfl fewer rfl closed, tokensCapacity, capacity.trans logprobsCapacity⟩
  | writing | finishing | stopped | done => simp [location] at stepped

theorem sent_sound (sound : s.Sound g) (more : HandlerAt) (outcome : SinkOutcome) : (s.sent more outcome).Sound g := by
  cases outcome <;>
    exact ⟨sound.bounded.drained rfl rfl le_rfl le_rfl rfl rfl, sound.tokensCapacity, sound.logprobsCapacity⟩

theorem streamStep_sound {action : StreamAction} (sound : s.Sound g)
    (stepped : streamStep g route frames s action = some s') : s'.Sound g := by
  cases action with
  | worker =>
    obtain ⟨_, tokensCapacity, logprobsCapacity, _⟩ := RequestState.workerStep_frame stepped
    exact ⟨RequestState.workerStep_bounded sound.bounded stepped, tokensCapacity.trans sound.tokensCapacity,
      logprobsCapacity.trans sound.logprobsCapacity⟩
  | admitFails =>
    have bounded := RequestState.admitFails_bounded sound.bounded stepped
    simp only [streamStep, RequestState.admitFails] at stepped
    split at stepped
    · obtain rfl := Option.some.inj stepped
      exact ⟨bounded, sound.tokensCapacity, sound.logprobsCapacity⟩
    · cases stepped
  | pop => exact popStep_sound sound stepped
  | write outcome =>
    simp only [streamStep, writeStep] at stepped
    split at stepped
    · obtain rfl := Option.some.inj stepped
      exact sent_sound sound _ outcome
    · obtain rfl := Option.some.inj stepped
      exact sent_sound sound _ outcome
    · cases stepped

/-! ### The first write is slow -/

/-- `k` tokens wait in the queues while the handler writes its first frame. -/
def waiting (g : Generation F) (k : Nat) : StreamState F where
  tokens := { items := (List.range k).map fun i => (g.samples i).1 }
  logprobs := { items := if g.reportsLogprobs then (List.range k).map fun i => (g.samples i).2 else [] }
  produced := k
  worker := .consuming
  consumer := { location := .writing 1 }

theorem waiting_step {k : Nat} (room : k < 1024) (notEos : g.isEos k = false) (more : (k + 1 : Nat) < g.maxTokens) :
    Reachable (streamStep g route frames) Free (waiting g k) (waiting g (k + 1)) := by
  have going : ¬ g.maxTokens ≤ (k : Int) + 1 := by omega
  by_cases reports : g.reportsLogprobs = true
  · have produces : [StreamAction.worker, .worker, .worker].foldlM (streamStep g route frames) (waiting g k) =
        some (waiting g (k + 1)) := by
      simp [streamStep, RequestState.workerStep, waiting, notEos, reports, SpscQueue.push, RequestState.counted,
        room, going, List.range_succ]
    exact Reachable.of_foldlM produces
  · have produces : [StreamAction.worker, .worker].foldlM (streamStep g route frames) (waiting g k) =
        some (waiting g (k + 1)) := by
      simp [streamStep, RequestState.workerStep, waiting, notEos, reports, SpscQueue.push, RequestState.counted,
        room, going, List.range_succ]
    exact Reachable.of_foldlM produces

/-- The client goes away while the 1025th push waits. -/
theorem stall_reached (long : 1024 < g.generated.length) :
    ∃ s, Reachable (streamStep g route frames) Free accepted s ∧ s.Stalled := by
  obtain ⟨inside, notEos⟩ := g.lt_generated.mp long
  have admitted : Reachable (streamStep g route frames) Free accepted (waiting g 0) := by
    have begun : [StreamAction.worker].foldlM (streamStep g route frames) accepted = some (waiting g 0) := by
      simp [streamStep, RequestState.workerStep, accepted, waiting]
    exact Reachable.of_foldlM begun
  have filled : Reachable (streamStep g route frames) Free (waiting g 0) (waiting g 1024) :=
    Reachable.iterate (waiting g) 1024 fun k below => waiting_step below (notEos k (by omega)) (by omega)
  let stuck : StreamState F := { waiting g 1024 with worker := .pushToken, cancelled := true, consumer := { location := .stopped } }
  have full : stuck.tokens.items.length = 1024 := by simp [stuck, waiting]
  refine ⟨stuck, admitted.trans (filled.trans ?_), .inl ⟨rfl, rfl, le_of_eq full.symm⟩, trivial⟩
  have here := notEos 1024 le_rfl
  have last : [StreamAction.worker, .write .failed].foldlM (streamStep g route frames) (waiting g 1024) = some stuck := by
    simp [streamStep, RequestState.workerStep, writeStep, sent, waiting, here, stuck]
  exact Reachable.of_foldlM last

/-- No disconnect, whenever it comes, leaves the worker in a push nobody will answer, exactly when the request
generates no more than a queue holds. -/
theorem never_stalls_iff (route : StreamRoute) (frames : List Int → Nat) (samples : Nat → Int × TokenLogprob F)
    (eosIds : List Int) (maxTokens : Int) :
    let g := route.makeRequest samples eosIds maxTokens
    (∀ s, Reachable (streamStep g route frames) Free accepted s → ¬ s.Stalled) ↔ g.generated.length ≤ 1024 := by
  intro g
  constructor
  · intro free
    by_contra long
    obtain ⟨s, reached, stuck⟩ : ∃ s, Reachable (streamStep g route frames) Free accepted s ∧ s.Stalled :=
      stall_reached (Nat.not_le.mp long)
    exact free s reached stuck
  · rintro short s reached ⟨blocked, _⟩
    have sound : s.Sound g :=
      reached.invariant (accepted_sound g) fun sound _ stepped => streamStep_sound sound stepped
    refine sound.bounded.unblocked ?_ ?_ blocked
    · rw [sound.tokensCapacity]; exact short
    · rw [sound.logprobsCapacity]; exact short

/-- A chat of up to 1025 tokens that the model does not end by itself. -/
theorem stall_chat : ∃ s, Reachable (streamStep ((StreamRoute.chat false 0 false).makeRequest
      (fun _ => (7, ⟨7, (0 : Int), []⟩)) [2] 1025) (.chat false 0 false) fun _ => 1) Free accepted s ∧ s.Stalled :=
  stall_reached ((Generation.lt_generated _).mpr ⟨by decide, fun _ _ => rfl⟩)

end StreamState

end Mlxforge
