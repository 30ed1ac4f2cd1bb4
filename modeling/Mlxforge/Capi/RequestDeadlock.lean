import Mlxforge.Capi.RequestHandle

/-!
When the worker and the consumer of a C API request wait for each other.
-/

namespace Mlxforge

open Transition

variable {F : Type} {g : Generation F} {completes : List Int → Bool}

namespace HandleAt

/-- One while the log-prob of the token just popped is still to be popped. -/
def owed : HandleAt → Nat
  | .nextLogprob | .freeLogprob => 1
  | _ => 0

end HandleAt

namespace ApiState

/-- What holds at every point of a request's life. -/
structure Sound (g : Generation F) (want : Bool) (s : ApiState F) : Prop where
  bounded : s.Bounded g
  tokensCapacity : s.tokens.capacity = 1024
  logprobsCapacity : s.logprobs.capacity = 1024
  flag : s.consumer.wantLogprobs = want
  popping : want = false → s.consumer.location.owed = 0
  ended : s.consumer.done = true ∨ s.consumer.location = .freed → s.tokens.closed = true
  lockstep : want = true → g.reportsLogprobs = true →
    s.tokens.items.length + s.consumer.location.owed = s.logprobs.items.length + s.worker.owed

variable {want : Bool} {s s' : ApiState F}

theorem submitted_sound (entry : EntryPoint) (g : Generation F) :
    (submitted entry g).Sound g (entry.submit g).wantLogprobs where
  bounded := ⟨fun _ => ⟨by simp [submitted], by simp [submitted]⟩, by simp [submitted], by simp [submitted],
    by simp [submitted], by simp [submitted], by simp [submitted], by simp [submitted]⟩
  tokensCapacity := rfl
  logprobsCapacity := rfl
  flag := rfl
  popping := fun _ => by cases entry <;> rfl
  ended := by cases entry <;> simp [submitted, EntryPoint.submit, submitIds, submitMm]
  lockstep := fun _ _ => by cases entry <;> rfl

theorem worker_sound (sound : s.Sound g want) (stepped : s.workerStep g = some s') : s'.Sound g want := by
  obtain ⟨consumer, tokensCapacity, logprobsCapacity, closed⟩ := RequestState.workerStep_frame stepped
  refine ⟨RequestState.workerStep_bounded sound.bounded stepped, tokensCapacity.trans sound.tokensCapacity,
    logprobsCapacity.trans sound.logprobsCapacity, consumer ▸ sound.flag, consumer ▸ sound.popping, ?_, ?_⟩
  · rw [consumer]
    exact fun last => closed (sound.ended last)
  · intro wanted reports
    have before := sound.lockstep wanted reports
    have balance := RequestState.workerStep_balance sound.bounded reports stepped
    rw [consumer]
    omega

theorem admitFails_sound (sound : s.Sound g want) (stepped : s.admitFails = some s') : s'.Sound g want := by
  have bounded := RequestState.admitFails_bounded sound.bounded stepped
  unfold RequestState.admitFails at stepped
  split at stepped
  · rename_i at_worker
    obtain rfl := Option.some.inj stepped
    refine ⟨bounded, sound.tokensCapacity, sound.logprobsCapacity, sound.flag, sound.popping, sound.ended, ?_⟩
    intro wanted reports
    have before := sound.lockstep wanted reports
    rw [at_worker] at before
    exact before
  · cases stepped

/-- A pop from the token queue, and what the consumer does with it. -/
theorem popTokens_sound {item : Option Int} {q : SpscQueue Int} {h : RequestHandle F} (sound : s.Sound g want)
    (asking : s.consumer.location.owed = 0) (popped : s.tokens.pop = some (item, q))
    (flag : h.wantLogprobs = want) (ended : h.done = true ∨ h.location = .freed → s.tokens.closed = true)
    (owed : h.location.owed = if item.isSome ∧ want = true then 1 else 0) :
    Sound g want { s with tokens := q, consumer := h } := by
  obtain ⟨capacity, closed, fewer⟩ := SpscQueue.pop_fewer popped
  obtain ⟨_, _, taken⟩ := SpscQueue.pop_spec popped
  have bounded : RequestState.Bounded g { s with tokens := q, consumer := h } :=
    sound.bounded.drained rfl rfl fewer le_rfl closed rfl
  refine ⟨bounded, capacity.trans sound.tokensCapacity, sound.logprobsCapacity, flag, ?_,
    fun last => closed.trans (ended last), ?_⟩
  · rintro rfl
    simpa using owed
  · rintro rfl reports
    have before := sound.lockstep rfl reports
    rcases taken with ⟨x, rfl, items⟩ | ⟨rfl, items, left, _⟩
    · simp only [items, List.length_cons, asking] at before
      simp only [owed, Option.isSome_some, and_self, if_true]
      omega
    · simp only [items, asking, List.length_nil] at before
      simpa only [owed, left, List.length_nil, Option.isSome_none, Bool.false_eq_true, false_and, if_false] using before

/-- A pop from the log-prob queue. -/
theorem popLogprobs_sound {item : Option (TokenLogprob F)} {q : SpscQueue (TokenLogprob F)} {h : RequestHandle F}
    (sound : s.Sound g want) (asking : s.consumer.location.owed = 1) (popped : s.logprobs.pop = some (item, q))
    (flag : h.wantLogprobs = want) (ended : h.done = true ∨ h.location = .freed → s.tokens.closed = true)
    (owed : h.location.owed = 0) : Sound g want { s with logprobs := q, consumer := h } := by
  obtain ⟨capacity, closed, fewer⟩ := SpscQueue.pop_fewer popped
  obtain ⟨_, _, taken⟩ := SpscQueue.pop_spec popped
  refine ⟨sound.bounded.drained rfl rfl le_rfl fewer rfl closed, sound.tokensCapacity,
    capacity.trans sound.logprobsCapacity, flag, fun _ => owed, ended, ?_⟩
  intro wanted reports
  have before := sound.lockstep wanted reports
  rcases taken with ⟨x, _, items⟩ | ⟨_, items, _, done⟩
  · simp only [items, List.length_cons, asking] at before
    simp only [owed]
    omega
  · have finished := sound.bounded.logprobsClosed.mp done
    simp only [items, asking, finished, List.length_nil, WorkerAt.owed] at before
    omega

theorem popStep_sound (sound : s.Sound g want) (stepped : popStep completes s = some s') : s'.Sound g want := by
  have flag := sound.flag
  have ended := sound.ended
  unfold popStep at stepped
  cases location : s.consumer.location with
  | idle | freed => simp [location] at stepped
  | nextToken =>
    simp only [location] at stepped ended
    obtain ⟨⟨item, q⟩, popped, rest⟩ := Option.bind_eq_some_iff.mp stepped
    obtain rfl := Option.some.inj rest
    cases item with
    | none =>
      obtain ⟨_, _, ⟨_, none_some, _⟩ | ⟨_, _, _, closed⟩⟩ := SpscQueue.pop_spec popped
      · cases none_some
      · exact popTokens_sound sound (by rw [location]; rfl) popped flag (fun _ => closed) rfl
    | some t =>
      have still : s.consumer.done = true → s.tokens.closed = true := fun done => ended (.inl done)
      cases want with
      | true =>
        simp only [flag, if_true]
        exact popTokens_sound sound (by rw [location]; rfl) popped rfl (by simpa using still) rfl
      | false =>
        simp only [flag, RequestHandle.delivered]
        cases completes (s.consumer.received ++ [t]) <;>
          exact popTokens_sound sound (by rw [location]; rfl) popped rfl (by simpa using still) rfl
  | nextLogprob =>
    simp only [location] at stepped ended
    obtain ⟨⟨item, q⟩, popped, rest⟩ := Option.bind_eq_some_iff.mp stepped
    obtain rfl := Option.some.inj rest
    simp only [RequestHandle.delivered]
    cases completes s.consumer.received <;>
      exact popLogprobs_sound sound (by rw [location]; rfl) popped flag (by simpa using ended) rfl
  | freeToken =>
    simp only [location] at stepped ended
    obtain ⟨⟨item, q⟩, popped, rest⟩ := Option.bind_eq_some_iff.mp stepped
    obtain rfl := Option.some.inj rest
    cases item with
    | none =>
      obtain ⟨_, _, ⟨_, none_some, _⟩ | ⟨_, _, _, closed⟩⟩ := SpscQueue.pop_spec popped
      · cases none_some
      · exact popTokens_sound sound (by rw [location]; rfl) popped flag (fun _ => closed) rfl
    | some t =>
      simp only [flag]
      cases want <;> exact popTokens_sound sound (by rw [location]; rfl) popped rfl (by simpa using ended) rfl
  | freeLogprob =>
    simp only [location] at stepped ended
    obtain ⟨⟨item, q⟩, popped, rest⟩ := Option.bind_eq_some_iff.mp stepped
    obtain rfl := Option.some.inj rest
    exact popLogprobs_sound sound (by rw [location]; rfl) popped flag (by simpa using ended) rfl

/-- Only the consumer's place changes. -/
theorem moved_sound {h : RequestHandle F} {c : Bool} (sound : s.Sound g want) (flag : h.wantLogprobs = want)
    (owed : h.location.owed = s.consumer.location.owed)
    (ended : h.done = true ∨ h.location = .freed → s.tokens.closed = true) :
    Sound g want { s with cancelled := c, consumer := h } where
  bounded := sound.bounded.drained rfl rfl le_rfl le_rfl rfl rfl
  tokensCapacity := sound.tokensCapacity
  logprobsCapacity := sound.logprobsCapacity
  flag := flag
  popping := fun off => owed.trans (sound.popping off)
  ended := ended
  lockstep := fun wanted reports => by
    have before := sound.lockstep wanted reports
    rw [← owed] at before
    exact before

theorem apiStep_sound {action : ApiAction} (sound : s.Sound g want) (stepped : apiStep g completes s action = some s') :
    s'.Sound g want := by
  have ended := sound.ended
  cases action with
  | worker => exact worker_sound sound stepped
  | admitFails => exact admitFails_sound sound stepped
  | pop => exact popStep_sound sound stepped
  | next =>
    simp only [apiStep] at stepped
    split at stepped
    · rename_i idle
      obtain rfl := Option.some.inj stepped
      refine moved_sound sound ?_ ?_ ?_ <;> split
      · exact sound.flag
      · exact sound.flag
      · rfl
      · rw [idle]; rfl
      · exact ended
      · rename_i going
        simp [going]
    · cases stepped
  | cancel =>
    simp only [apiStep] at stepped
    split at stepped
    · cases stepped
    · obtain rfl := Option.some.inj stepped
      exact moved_sound sound sound.flag rfl ended
  | free =>
    simp only [apiStep] at stepped
    split at stepped
    · rename_i idle
      split at stepped <;> obtain rfl := Option.some.inj stepped
      · rename_i done
        exact moved_sound sound sound.flag (by rw [idle]; rfl) (fun _ => ended (.inl done))
      · rename_i going
        exact moved_sound sound sound.flag (by rw [idle]; rfl) (by simp [going])
    · cases stepped

theorem reachable_sound {entry : EntryPoint}
    (reached : Reachable (apiStep g completes) Free (submitted entry g) s) :
    s.Sound g (entry.submit g).wantLogprobs :=
  reached.invariant (submitted_sound entry g) fun sound _ stepped => apiStep_sound sound stepped

/-- A consumer that is gone has left the token queue open only by waiting. -/
theorem gone_waits (sound : s.Sound g want) (gone : s.ConsumerGone) (opened : s.tokens.closed = false) :
    (s.tokens.items = [] ∧ s.consumer.location.owed = 0) ∨ (s.logprobs.items = [] ∧ s.consumer.location.owed = 1) := by
  have ended := sound.ended
  unfold ConsumerGone at gone
  cases location : s.consumer.location <;> simp only [location] at gone ended
  · exact absurd (ended (.inl gone)) (by simp [opened])
  · exact .inl ⟨gone.1, rfl⟩
  · exact .inr ⟨gone.1, rfl⟩
  · exact .inl ⟨gone.1, rfl⟩
  · exact .inr ⟨gone.1, rfl⟩
  · exact absurd (ended (.inr trivial)) (by simp [opened])

theorem no_deadlock (sound : s.Sound g want)
    (safe : want = g.reportsLogprobs ∨ g.generated.length ≤ 1024) : ¬ s.Deadlock := by
  rintro ⟨blocked, gone⟩
  rcases safe with wants | short
  · rcases blocked with ⟨at_worker, opened, full⟩ | ⟨at_worker, _, full⟩
    · -- inside `tokens.push`
      rw [sound.tokensCapacity] at full
      rcases gone_waits sound gone opened with ⟨empty, _⟩ | ⟨empty, owed⟩
      · simp [empty] at full
      · have wanted : want = true := by
          cases want with
          | true => rfl
          | false => simp [sound.popping rfl] at owed
        have balance := sound.lockstep wanted (wants ▸ wanted)
        simp [empty, owed, at_worker, WorkerAt.owed] at balance
    · -- inside `logprobs.push`
      have opened : s.tokens.closed = false := by simpa [at_worker] using sound.bounded.tokensClosed
      have reports := sound.bounded.reporting at_worker
      rw [sound.logprobsCapacity] at full
      rcases gone_waits sound gone opened with ⟨empty, owed⟩ | ⟨empty, _⟩
      · have balance := sound.lockstep (wants.trans reports) reports
        simp only [empty, owed, at_worker, WorkerAt.owed, List.length_nil] at balance
        omega
      · simp [empty] at full
  · refine sound.bounded.unblocked ?_ ?_ blocked
    · rw [sound.tokensCapacity]; exact short
    · rw [sound.logprobsCapacity]; exact short

/-! ### A queue nobody drains -/

/-- `k` tokens in, all popped, none of their log-probs. -/
def undrained (g : Generation F) (k : Nat) : ApiState F where
  logprobs := { items := (List.range k).map fun i => (g.samples i).2 }
  produced := k
  worker := .consuming
  consumer := { location := .nextToken, received := (List.range k).map fun i => (g.samples i).1 }

/-- One more token: pushed with its log-prob, popped without it. -/
theorem undrained_step {k : Nat} (room : k < 1024) (notEos : g.isEos k = false) (more : (k + 1 : Nat) < g.maxTokens)
    (reports : g.reportsLogprobs = true) :
    Reachable (apiStep g completes) Free (undrained g k) (undrained g (k + 1)) := by
  have items : ((List.range (k + 1)).map fun i => (g.samples i).2) =
      ((List.range k).map fun i => (g.samples i).2) ++ [(g.samples k).2] := by simp [List.range_succ]
  have received : ((List.range (k + 1)).map fun i => (g.samples i).1) =
      ((List.range k).map fun i => (g.samples i).1) ++ [(g.samples k).1] := by simp [List.range_succ]
  let pushed : ApiState F :=
    { undrained g (k + 1) with tokens := { items := [(g.samples k).1] }, consumer := (undrained g k).consumer }
  have produces : [ApiAction.worker, .worker, .worker].foldlM (apiStep g completes) (undrained g k) = some pushed := by
    simp only [List.foldlM_cons, List.foldlM_nil, apiStep, RequestState.workerStep, undrained, notEos, reports,
      SpscQueue.push, RequestState.counted, Option.bind_eq_bind, Option.pure_def, items, pushed]
    simp [room]
    omega
  refine Reachable.trans (Reachable.of_foldlM produces) ?_
  by_cases returns : completes ((undrained g (k + 1)).consumer.received) = true
  · -- `request_next` returns, and is called again
    have consumes : [ApiAction.pop, .next].foldlM (apiStep g completes) pushed = some (undrained g (k + 1)) := by
      simp only [undrained, received] at returns
      simp [apiStep, popStep, SpscQueue.pop, undrained, RequestHandle.delivered, received, returns, pushed]
    exact Reachable.of_foldlM consumes
  · have consumes : [ApiAction.pop].foldlM (apiStep g completes) pushed = some (undrained g (k + 1)) := by
      simp only [undrained, received] at returns
      simp [apiStep, popStep, SpscQueue.pop, undrained, RequestHandle.delivered, received, returns, pushed]
    exact Reachable.of_foldlM consumes

/-- With log-probs pushed and never popped, the 1025th token ends in a deadlock. -/
theorem deadlock_reached {s₀ : ApiState F} (start : Reachable (apiStep g completes) Free s₀ (undrained g 0))
    (reports : g.reportsLogprobs = true) (long : 1024 < g.generated.length) :
    ∃ s, Reachable (apiStep g completes) Free s₀ s ∧ s.Deadlock := by
  obtain ⟨inside, notEos⟩ := g.lt_generated.mp long
  have filled : Reachable (apiStep g completes) Free (undrained g 0) (undrained g 1024) :=
    Reachable.iterate (undrained g) 1024 fun k below =>
      undrained_step below (notEos k (by omega)) (by omega) reports
  let h : RequestHandle F :=
    { location := .nextToken, received := (undrained g 1024).consumer.received ++ [(g.samples 1024).1] }
  let stuck : ApiState F := { undrained g 1024 with worker := .pushLogprob, consumer := h }
  have full : stuck.logprobs.items.length = 1024 := by simp [stuck, undrained]
  have blocked : stuck.Deadlock := ⟨.inr ⟨rfl, rfl, le_of_eq full.symm⟩, rfl, rfl⟩
  refine ⟨stuck, start.trans (filled.trans ?_), blocked⟩
  have here := notEos 1024 le_rfl
  by_cases returns : completes h.received = true
  · have last : [ApiAction.worker, .worker, .pop, .next].foldlM (apiStep g completes) (undrained g 1024) =
        some stuck := by
      simp only [h, undrained] at returns
      simp [apiStep, popStep, RequestState.workerStep, SpscQueue.push, SpscQueue.pop, RequestHandle.delivered,
        undrained, here, reports, returns, stuck, h]
    exact Reachable.of_foldlM last
  · have last : [ApiAction.worker, .worker, .pop].foldlM (apiStep g completes) (undrained g 1024) = some stuck := by
      simp only [h, undrained] at returns
      simp [apiStep, popStep, RequestState.workerStep, SpscQueue.push, SpscQueue.pop, RequestHandle.delivered,
        undrained, here, reports, returns, stuck, h]
    exact Reachable.of_foldlM last

theorem image_start (entry : EntryPoint) (image : entry = .submitImage ∨ entry = .submitImages) :
    Reachable (apiStep g completes) Free (submitted entry g) (undrained g 0) := by
  have begun : [ApiAction.worker, .next].foldlM (apiStep g completes) (submitted entry g) = some (undrained g 0) := by
    rcases image with rfl | rfl <;> rfl
  exact Reachable.of_foldlM begun

/-- The worker and the consumer never wait for each other, whatever the tokens and the calls, exactly when the
request is not an image request with log-probs and more than 1024 tokens. -/
theorem no_deadlock_iff (entry : EntryPoint) (sampling : Option Sampling) (samples : Nat → Int × TokenLogprob F)
    (eosIds : List Int) (completes : List Int → Bool) :
    let g := requestOf sampling samples eosIds
    (∀ s, Reachable (apiStep g completes) Free (submitted entry g) s → ¬ s.Deadlock) ↔
      entry = .submitChat ∨ entry = .submitText ∨ toParamsTopLogprobs sampling < 0 ∨ g.generated.length ≤ 1024 := by
  intro g
  constructor
  · intro free
    by_contra broken
    obtain ⟨notChat, notText, reported, long⟩ : entry ≠ .submitChat ∧ entry ≠ .submitText ∧
        ¬ toParamsTopLogprobs sampling < 0 ∧ ¬ g.generated.length ≤ 1024 := by tauto
    have image : entry = .submitImage ∨ entry = .submitImages := by
      cases entry <;> simp_all
    have reports : g.reportsLogprobs = true := by
      simp only [Generation.reportsLogprobs, g, requestOf, decide_eq_true_eq]
      omega
    obtain ⟨s, reached, stuck⟩ := deadlock_reached (image_start entry image) reports (by omega)
    exact free s reached stuck
  · intro safe s reached
    refine no_deadlock (reachable_sound reached) ?_
    cases entry with
    | submitChat => exact .inl rfl
    | submitText => exact .inl rfl
    | submitImage | submitImages =>
      rcases safe with absurd | absurd | off | short
      · cases absurd
      · cases absurd
      · left
        simp only [EntryPoint.submit, submitMm, Generation.reportsLogprobs, g, requestOf]
        exact (decide_eq_false (by omega)).symm
      · exact .inr short

/-- One image, log-probs on, a limit of 1025 tokens and a model that never ends by itself. -/
theorem deadlock_image : ∃ s, Reachable (apiStep (requestOf (some ⟨1025, 1⟩) (fun _ => (7, ⟨7, (0 : Int), []⟩)) [2])
    (fun _ => true)) Free (submitted .submitImage (requestOf (some ⟨1025, 1⟩) (fun _ => (7, ⟨7, 0, []⟩)) [2])) s ∧
    s.Deadlock := by
  refine deadlock_reached (image_start _ (.inl rfl)) rfl ?_
  refine (Generation.lt_generated _).mpr ⟨by decide, fun _ _ => rfl⟩

end ApiState

end Mlxforge
