import Mlxforge.Lib.Transition
import Mlxforge.Scheduler.Scheduler
import Mlxforge.Server.RequestBody
import Mlxforge.Server.ToolCallRoundTrip

/-!
What gets into the waiting queue: the completion handlers up to their submission, beside the entry points of the C API
and `Engine::embed`. Every accepted request has settings the worker can run with, and every other call is answered and
leaves the queue alone.
-/

namespace Mlxforge

open Transition (Reachable Free)

inductive Route where
  | chatCompletions | completions | messages
  deriving DecidableEq, Repr

/-- The answer to a call that gets no request. Anthropic errors have no code. -/
structure Failure where
  status : Nat
  message : Bytes
  type : Bytes
  code : Option Bytes
  deriving DecidableEq

/-- How a handler comes out of parsing and submission. -/
inductive Outcome where
  | failed (f : Failure)
  | queued (req : Request) (stream : Bool)

/-- The server with a JSON library, which has its own texts for its exceptions. -/
structure HttpServer where
  fe : FrontEnds
  js : JsonLib
  what : Exn → Bytes

/-- `anthropic_error_type`. -/
def anthropicErrorType (status : Nat) : Bytes :=
  match status with
  | 404 => ascii "not_found_error"
  | 429 => ascii "rate_limit_error"
  | 503 => ascii "overloaded_error"
  | _ => ascii "invalid_request_error"

/-- `error_body` and `anthropic_error_body`. -/
def Failure.body (f : Failure) : Json :=
  match f.code with
  | some code => .object [("error", .object [("message", .str f.message), ("type", .str f.type), ("code", .str code)])]
  | none => .object [("type", .text "error"), ("error", .object [("type", .str f.type), ("message", .str f.message)])]

namespace Route

def parse (js : JsonLib) : Route → Json → Except Exn ParsedRequest
  | .chatCompletions => parseChatRequest js
  | .completions => parseCompletionRequest js
  | .messages => parseMessagesRequest js

/-- `fail` and `a_fail`. -/
def fail (route : Route) (status : Nat) (message type code : Bytes) : Failure :=
  match route with
  | .messages => { status, message, type := anthropicErrorType status, code := none }
  | _ => { status, message, type, code := some code }

end Route

namespace HttpServer

variable (sv : HttpServer)

def exceptionText : Exn → Bytes
  | .runtime what => ascii what
  | e => sv.what e

/-- The handlers' `catch` clauses; nothing is said of a call that C++ leaves undefined. -/
def caught (route : Route) (e : Exn) : Option Outcome :=
  if e = .undefined then none
  else some (.failed (route.fail 400 (sv.exceptionText e) (ascii "invalid_request_error")
    (if e = .parse then ascii "bad_json" else ascii "invalid_params")))

/-- `submit_request`: the request waits under the number `id` if the queue takes it. -/
def submitRequest (route : Route) (cr : ParsedRequest) (s : Scheduler) (id : Nat) : Option (Outcome × Scheduler) := do
  match ← sv.fe.submitRequest cr.toApiRequest with
  | .error (.thrown e) => return (← sv.caught route e, s)
  | .error (.http status message type code) => return (.failed (route.fail status message type code), s)
  | .ok req =>
    let (accepted, s) := s.submit id
    return (if accepted then .queued req cr.stream
      else .failed (route.fail 429 (ascii "server is overloaded; retry later") (ascii "rate_limit_error") (ascii "queue_full")), s)

/-- The handler of a route as far as the submission. -/
def handle (ready : Bool) (route : Route) (bytes : Bytes) (s : Scheduler) (id : Nat) : Option (Outcome × Scheduler) :=
  if !ready then
    some (.failed (route.fail 503 (ascii "model is still loading") (ascii "server_error") (ascii "model_loading")), s)
  else match sv.js.parse bytes >>= route.parse sv.js with
    | .error e => (sv.caught route e).map fun outcome => (outcome, s)
    | .ok cr => sv.submitRequest route cr s id

end HttpServer

/-! ### The other ways in -/

/-- `EmbedOptions`; negative values stand for the model's defaults. -/
structure EmbedOptions where
  pooling : Int := -1
  addEos : Int := -1
  normalize : Bool := true
  instruction : Bytes := []

/-- What the engine has detected of the model. -/
structure EmbedDefaults where
  pooling : Int := 0
  addEos : Bool := false

namespace FrontEnds

variable (fe : FrontEnds)

/-- The request of `Engine::embed`. -/
def embedRequest (defaults : EmbedDefaults) (text : Bytes) (opts : EmbedOptions) : Option Request :=
  let addEos := if 0 ≤ opts.addEos then opts.addEos ≠ 0 else defaults.addEos
  let input := if opts.instruction = [] then text else ascii "Instruct: " ++ opts.instruction ++ ascii "\nQuery:" ++ text
  (fe.tok.encode fe.tables input).map fun ids => {
    promptIds := ids ++ if addEos then fe.eosTokenIds.head?.toList else []
    embedding := true
    pooling := if 0 ≤ opts.pooling then opts.pooling else defaults.pooling
    embeddingNormalize := opts.normalize }

/-- `submit_mm`. -/
def submitMm (prompt : String) (images : List Bytes) (sampling : Option SamplingOptions) : Request where
  params := toParams sampling
  maxTokens := samplingMaxTokens sampling
  eosIds := fe.eosTokenIds
  mmText := prompt
  mmImages := images

end FrontEnds

/-! ### Runs -/

/-- Calls of the threads that share the scheduler: HTTP handlers, C API clients, and the worker taking requests. -/
inductive IntakeStep where
  | http (ready : Bool) (route : Route) (bytes : Bytes)
  | chat (messages : List (Bytes × Bytes)) (sampling : Option SamplingOptions)
  | text (prompt : Bytes) (sampling : Option SamplingOptions)
  | images (prompt : String) (images : List Bytes) (sampling : Option SamplingOptions)
  | embed (text : Bytes) (opts : EmbedOptions)
  | nextWaiting
  | takeWaiting (max : Nat)
  | stop

inductive Origin where
  | http | capi
  deriving DecidableEq

/-- The waiting queue with every request it ever took, each numbered by its place, the numbers that the worker has taken,
and the answers to the HTTP calls that got no request. -/
structure Intake where
  scheduler : Scheduler
  accepted : List (Origin × Request) := []
  taken : List Nat := []
  failures : List Failure := []
  httpCalls : Nat := 0

namespace Intake

/-- A request from the C API, which is told whether it was taken. -/
def offer (s : Intake) (req : Request) : Intake :=
  let (accepted, scheduler) := s.scheduler.submit s.accepted.length
  if accepted then { s with scheduler, accepted := s.accepted ++ [(.capi, req)] } else { s with scheduler }

variable (sv : HttpServer) (defaults : EmbedDefaults)

def step (s : Intake) : IntakeStep → Option Intake
  | .http ready route bytes => do
    let (outcome, scheduler) ← sv.handle ready route bytes s.scheduler s.accepted.length
    let s := { s with scheduler, httpCalls := s.httpCalls + 1 }
    match outcome with
    | .failed f => return { s with failures := s.failures ++ [f] }
    | .queued req _ => return { s with accepted := s.accepted ++ [(.http, req)] }
  | .chat messages sampling => do
    let ids ← sv.fe.tok.applyChatTemplate sv.fe.tables (messages.map fun m => { role := m.1, content := m.2 }) sv.fe.date
    return s.offer (sv.fe.submitIds ids sampling)
  | .text prompt sampling => do
    let ids ← sv.fe.tok.encode sv.fe.tables prompt
    return s.offer (sv.fe.submitIds ids sampling)
  | .images prompt images sampling => some (s.offer (sv.fe.submitMm prompt images sampling))
  | .embed text opts => (sv.fe.embedRequest defaults text opts).map s.offer
  | .nextWaiting => do
    let (next, scheduler) ← s.scheduler.nextWaiting
    return { s with scheduler, taken := s.taken ++ next.toList }
  | .takeWaiting max =>
    let (batch, scheduler) := s.scheduler.takeWaiting max
    some { s with scheduler, taken := s.taken ++ batch }
  | .stop => some { s with scheduler := s.scheduler.stop }

end Intake

/-! ### Checked settings -/

/-- The ranges in which the sampler draws. -/
structure SamplingParams.Samples (p : SamplingParams) : Prop where
  repetitionPenalty : 0 < p.repetitionPenalty
  topP : 0 < p.topP ∧ p.topP ≤ 1
  minP : 0 ≤ p.minP ∧ p.minP ≤ 1
  topLogprobs : -1 ≤ p.topLogprobs

/-- The ranges that the request parsers let through. -/
structure SamplingParams.Checked (p : SamplingParams) : Prop extends p.Samples where
  temperature : 0 ≤ p.temperature
  frequencyPenalty : -2 ≤ p.frequencyPenalty ∧ p.frequencyPenalty ≤ 2
  presencePenalty : -2 ≤ p.presencePenalty ∧ p.presencePenalty ≤ 2

/-- A request the worker can run. An HTTP request has an answer of bounded length and alternatives, fits the context, and
has images for a vision model only. -/
structure Admissible (fe : FrontEnds) (origin : Origin) (req : Request) : Prop where
  samples : req.params.Samples
  maxTokens : 1 ≤ req.maxTokens
  checked : origin = .http → req.params.Checked ∧ req.params.topLogprobs ≤ 20
  generates : origin = .http → req.embedding = false ∧ req.jsonSchema = "" ∧ req.eosIds = fe.eosTokenIds
  fits : origin = .http → 0 < fe.maxCtx → req.promptIds.length ≤ fe.maxCtx
  vision : origin = .http → req.isMultimodal = true → fe.hasVisionTower = true

theorem require_ok {p : Prop} [Decidable p] {what : String} {u : Unit} (passed : require p what = .ok u) : p := by
  unfold require at passed
  split at passed
  · assumption
  · cases passed

section
variable {js : JsonLib} {body : Json} {params : SamplingParams} {r cr : ParsedRequest}

theorem OpenAi.parseParams_checked (parsed : OpenAi.parseParams body = .ok params) :
    params.Checked ∧ params.topLogprobs = -1 := by
  unfold OpenAi.parseParams at parsed
  obtain ⟨temperature, -, parsed⟩ := bind_ok parsed
  obtain ⟨_, warm, parsed⟩ := bind_ok parsed
  obtain ⟨topP, -, parsed⟩ := bind_ok parsed
  obtain ⟨_, nucleus, parsed⟩ := bind_ok parsed
  obtain ⟨topK, -, parsed⟩ := bind_ok parsed
  obtain ⟨minP, -, parsed⟩ := bind_ok parsed
  obtain ⟨_, floor, parsed⟩ := bind_ok parsed
  obtain ⟨repetitionPenalty, -, parsed⟩ := bind_ok parsed
  obtain ⟨_, positive, parsed⟩ := bind_ok parsed
  obtain ⟨frequencyPenalty, -, parsed⟩ := bind_ok parsed
  obtain ⟨presencePenalty, -, parsed⟩ := bind_ok parsed
  obtain ⟨_, frequency, parsed⟩ := bind_ok parsed
  obtain ⟨_, presence, parsed⟩ := bind_ok parsed
  obtain ⟨seed, -, parsed⟩ := bind_ok parsed
  obtain rfl := pure_ok parsed
  exact ⟨{
    repetitionPenalty := require_ok positive
    topP := require_ok nucleus
    minP := require_ok floor
    topLogprobs := le_refl _
    temperature := require_ok warm
    frequencyPenalty := require_ok frequency
    presencePenalty := require_ok presence }, rfl⟩

theorem Anthropic.parseParams_checked (parsed : Anthropic.parseParams body = .ok params) :
    params.Checked ∧ params.topLogprobs = -1 := by
  unfold Anthropic.parseParams at parsed
  obtain ⟨temperature, -, parsed⟩ := bind_ok parsed
  obtain ⟨_, warm, parsed⟩ := bind_ok parsed
  obtain ⟨topP, -, parsed⟩ := bind_ok parsed
  obtain ⟨_, nucleus, parsed⟩ := bind_ok parsed
  obtain ⟨topK, -, parsed⟩ := bind_ok parsed
  obtain ⟨seed, -, parsed⟩ := bind_ok parsed
  obtain rfl := pure_ok parsed
  exact ⟨{
    repetitionPenalty := by norm_num
    topP := require_ok nucleus
    minP := by norm_num
    topLogprobs := le_refl _
    temperature := require_ok warm
    frequencyPenalty := by norm_num
    presencePenalty := by norm_num }, rfl⟩

theorem OpenAi.parseCommon_checked (parsed : OpenAi.parseCommon js body r = .ok cr) :
    cr.params.Checked ∧ 0 < cr.maxTokens ∧ 0 ≤ cr.topLogprobs ∧ cr.topLogprobs ≤ 20 := by
  unfold OpenAi.parseCommon at parsed
  obtain ⟨model, -, parsed⟩ := bind_ok parsed
  obtain ⟨maxTokens, -, parsed⟩ := bind_ok parsed
  obtain ⟨_, positive, parsed⟩ := bind_ok parsed
  obtain ⟨params, sampling, parsed⟩ := bind_ok parsed
  obtain ⟨logprobs, -, parsed⟩ := bind_ok parsed
  obtain ⟨topLogprobs, -, parsed⟩ := bind_ok parsed
  obtain ⟨_, reported, parsed⟩ := bind_ok parsed
  iterate 6 obtain ⟨_, -, parsed⟩ := bind_ok parsed
  obtain rfl := pure_ok parsed
  exact ⟨(OpenAi.parseParams_checked sampling).1, require_ok positive, (require_ok reported).1, (require_ok reported).2⟩

theorem Anthropic.parseMaxTokens_positive {maxTokens : Int} (parsed : Anthropic.parseMaxTokens body = .ok maxTokens) :
    0 < maxTokens := by
  unfold Anthropic.parseMaxTokens at parsed
  obtain ⟨n, -, parsed⟩ := bind_ok parsed
  obtain ⟨_, positive, parsed⟩ := bind_ok parsed
  exact pure_ok parsed ▸ require_ok positive

/-- Whatever the body, a parsed request has passed every check. -/
theorem Route.parse_checked {route : Route} (parsed : route.parse js body = .ok cr) :
    cr.params.Checked ∧ 0 < cr.maxTokens ∧ 0 ≤ cr.topLogprobs ∧ cr.topLogprobs ≤ 20 := by
  cases route with
  | chatCompletions =>
    change parseChatRequest js body = .ok cr at parsed
    unfold parseChatRequest at parsed
    obtain ⟨turns, -, parsed⟩ := bind_ok parsed
    exact OpenAi.parseCommon_checked parsed
  | completions =>
    change parseCompletionRequest js body = .ok cr at parsed
    unfold parseCompletionRequest at parsed
    split at parsed
    · exact OpenAi.parseCommon_checked parsed
    · cases parsed
  | messages =>
    change parseMessagesRequest js body = .ok cr at parsed
    unfold parseMessagesRequest at parsed
    obtain ⟨model, -, parsed⟩ := bind_ok parsed
    obtain ⟨maxTokens, limit, parsed⟩ := bind_ok parsed
    obtain ⟨turns, -, parsed⟩ := bind_ok parsed
    obtain ⟨params, sampling, parsed⟩ := bind_ok parsed
    iterate 4 obtain ⟨_, -, parsed⟩ := bind_ok parsed
    obtain rfl := pure_ok parsed
    exact ⟨(Anthropic.parseParams_checked sampling).1, Anthropic.parseMaxTokens_positive limit, le_refl 0, by norm_num [ParsedRequest.ofTurns]⟩

end

/-! ### The request of a call -/

section
variable {fe : FrontEnds} {cr : ApiRequest} {req : Request}

/-- The settings of a request that the HTTP server makes. -/
theorem FrontEnds.makeRequest_settings (made : fe.makeRequest cr = some (.ok req)) :
    (∃ n, req.params = { cr.params with topLogprobs := n } ∧ (n = -1 ∨ n = cr.topLogprobs)) ∧ req.maxTokens = cr.maxTokens ∧
      req.eosIds = fe.eosTokenIds ∧ req.embedding = false ∧ req.jsonSchema = "" ∧
      (req.isMultimodal = true → fe.hasVisionTower = true) := by
  have reported : ∃ n, n = (if cr.logprobs && !cr.hasImages then cr.topLogprobs else -1) ∧ (n = -1 ∨ n = cr.topLogprobs) := by
    refine ⟨_, rfl, ?_⟩
    split_ifs
    · exact .inr rfl
    · exact .inl rfl
  obtain ⟨n, chosen, cases⟩ := reported
  simp only [FrontEnds.makeRequest, ← chosen] at made
  split at made
  · split at made
    · cases made
    next vision =>
      cases given : fe.messagesWithImages cr with
      | error e =>
        rw [given] at made
        cases made
      | ok rendered =>
        rw [given] at made
        obtain ⟨ids, -, same⟩ := Option.map_eq_some_iff.mp made
        obtain rfl := Except.ok.inj same
        exact ⟨⟨n, rfl, cases⟩, rfl, rfl, rfl, rfl, fun _ => by simpa using vision⟩
  · obtain ⟨ids, -, same⟩ := Option.map_eq_some_iff.mp made
    obtain rfl := Except.ok.inj same
    exact ⟨⟨n, rfl, cases⟩, rfl, rfl, rfl, rfl, fun images => absurd images (by simp [Request.isMultimodal])⟩

/-- `submit_request` up to the queue: it refuses with 404 or 400, or makes a request that fits the context. -/
theorem FrontEnds.submitRequest_cases {made : Except Refusal Request} (given : fe.submitRequest cr = some made) :
    (∃ e, made = .error (.thrown e)) ∨
      (∃ status message type code, made = .error (.http status message type code) ∧ (status = 404 ∨ status = 400)) ∨
      ∃ req, made = .ok req ∧ fe.makeRequest cr = some (.ok req) ∧ (0 < fe.maxCtx → req.promptIds.length ≤ fe.maxCtx) := by
  unfold FrontEnds.submitRequest at given
  split at given
  · obtain rfl := Option.some.inj given
    exact .inr (.inl ⟨_, _, _, _, rfl, .inl rfl⟩)
  · obtain ⟨outcome, request, same⟩ := Option.map_eq_some_iff.mp given
    cases outcome with
    | error e =>
      obtain rfl := same
      exact .inl ⟨e, rfl⟩
    | ok req =>
      dsimp only at same
      split at same
      · obtain rfl := same
        exact .inr (.inl ⟨_, _, _, _, rfl, .inr rfl⟩)
      next fits =>
        obtain rfl := same
        exact .inr (.inr ⟨req, rfl, request, fun bounded => by push Not at fits; exact fits bounded⟩)

theorem FrontEnds.admissible_http (made : fe.makeRequest cr = some (.ok req)) (checked : cr.params.Checked)
    (positive : 0 < cr.maxTokens) (reported : 0 ≤ cr.topLogprobs ∧ cr.topLogprobs ≤ 20)
    (fits : 0 < fe.maxCtx → req.promptIds.length ≤ fe.maxCtx) : Admissible fe .http req := by
  obtain ⟨⟨n, params, choice⟩, maxTokens, eosIds, embedding, schema, vision⟩ := FrontEnds.makeRequest_settings made
  have range : -1 ≤ n ∧ n ≤ 20 := by omega
  have samples : req.params.Samples := by
    rw [params]
    exact ⟨checked.repetitionPenalty, checked.topP, checked.minP, range.1⟩
  exact {
    samples
    maxTokens := by omega
    checked := fun _ => by
      rw [params] at samples ⊢
      exact ⟨⟨samples, checked.temperature, checked.frequencyPenalty, checked.presencePenalty⟩, range.2⟩
    generates := fun _ => ⟨embedding, schema, eosIds⟩
    fits := fun _ => fits
    vision := fun _ => vision }

/-- A setting of the C API is in range, or off. -/
theorem FrontEnds.inRange_cases (p : Rat → Bool) (off : Rat) (x : Option Rat) :
    FrontEnds.inRange p off x = off ∨ p (FrontEnds.inRange p off x) = true := by
  cases x with
  | none => exact .inl rfl
  | some x =>
    by_cases inside : p x = true
    · exact .inr (by simp [FrontEnds.inRange, Option.filter, inside])
    · exact .inl (by simp [FrontEnds.inRange, Option.filter, inside])

theorem FrontEnds.toParams_samples (sampling : Option SamplingOptions) : (FrontEnds.toParams sampling).Samples := by
  cases sampling with
  | none => exact ⟨by norm_num [FrontEnds.toParams], by norm_num [FrontEnds.toParams], by norm_num [FrontEnds.toParams], le_refl _⟩
  | some s =>
    have penalty := FrontEnds.inRange_cases (0 < ·) 1 s.repetitionPenalty
    have nucleus := FrontEnds.inRange_cases (fun p => 0 < p && p < 1) 1 s.topP
    have floor := FrontEnds.inRange_cases (fun p => 0 < p && p ≤ 1) 0 s.minP
    constructor
    · change 0 < FrontEnds.inRange (0 < ·) 1 s.repetitionPenalty
      rcases penalty with off | inside
      · rw [off]
        exact one_pos
      · exact of_decide_eq_true inside
    · change 0 < FrontEnds.inRange (fun p => 0 < p && p < 1) 1 s.topP ∧ FrontEnds.inRange (fun p => 0 < p && p < 1) 1 s.topP ≤ 1
      rcases nucleus with off | inside
      · rw [off]
        exact ⟨one_pos, le_refl 1⟩
      · simp only [Bool.and_eq_true, decide_eq_true_eq] at inside
        exact ⟨inside.1, inside.2.le⟩
    · change 0 ≤ FrontEnds.inRange (fun p => 0 < p && p ≤ 1) 0 s.minP ∧ FrontEnds.inRange (fun p => 0 < p && p ≤ 1) 0 s.minP ≤ 1
      rcases floor with off | inside
      · rw [off]
        exact ⟨le_refl 0, zero_le_one⟩
      · simp only [Bool.and_eq_true, decide_eq_true_eq] at inside
        exact ⟨inside.1.le, inside.2⟩
    · simp only [FrontEnds.toParams]
      split_ifs <;> omega

theorem FrontEnds.samplingMaxTokens_positive (sampling : Option SamplingOptions) : 1 ≤ FrontEnds.samplingMaxTokens sampling := by
  unfold FrontEnds.samplingMaxTokens
  split
  · split_ifs <;> omega
  · decide

/-- C API clients and embeddings. -/
theorem FrontEnds.admissible_capi (samples : req.params.Samples) (maxTokens : 1 ≤ req.maxTokens) : Admissible fe .capi req where
  samples
  maxTokens
  checked := nofun
  generates := nofun
  fits := nofun
  vision := nofun

end

/-! ### Handlers -/

/-- The queue takes the request if it has room. -/
theorem Scheduler.submit_cases (s : Scheduler) (req : Nat) :
    (s.submit req = (true, { s with waiting := s.waiting ++ [req] }) ∧ (0 < s.maxWaiting → (s.waiting.length : Int) < s.maxWaiting)) ∨
      (s.submit req = (false, s) ∧ 0 < s.maxWaiting ∧ s.maxWaiting ≤ s.waiting.length) := by
  unfold Scheduler.submit
  split_ifs with full
  · exact .inr ⟨rfl, full⟩
  · exact .inl ⟨rfl, fun bounded => by push Not at full; exact full bounded⟩

theorem Scheduler.nextWaiting_cases {s s' : Scheduler} {next : Option Nat} (taken : s.nextWaiting = some (next, s')) :
    (next = none ∧ s' = s) ∨
      ∃ req rest, next = some req ∧ s' = { s with waiting := rest } ∧ s.waiting = [req] ++ rest := by
  unfold Scheduler.nextWaiting at taken
  split at taken
  next req rest waiting =>
    obtain ⟨rfl, rfl⟩ := Prod.mk.inj (Option.some.inj taken)
    exact .inr ⟨req, rest, rfl, rfl, waiting⟩
  · split at taken
    · obtain ⟨rfl, rfl⟩ := Prod.mk.inj (Option.some.inj taken)
      exact .inl ⟨rfl, rfl⟩
    · cases taken

/-- What a handler did to the queue: nothing, with an error for the client, or it put an admissible request there. -/
inductive Handled (fe : FrontEnds) (s : Scheduler) (id : Nat) : Outcome → Scheduler → Prop where
  | failed (f : Failure) (status : f.status ∈ [400, 404, 429, 503])
      (full : f.status = 429 → 0 < s.maxWaiting ∧ s.maxWaiting ≤ s.waiting.length) : Handled fe s id (.failed f) s
  | queued (req : Request) (stream : Bool) (admissible : Admissible fe .http req)
      (room : 0 < s.maxWaiting → (s.waiting.length : Int) < s.maxWaiting) :
      Handled fe s id (.queued req stream) { s with waiting := s.waiting ++ [id] }

@[simp] theorem Route.fail_status (route : Route) (status : Nat) (message type code : Bytes) :
    (route.fail status message type code).status = status := by
  cases route <;> rfl

theorem Handled.of_fail {fe : FrontEnds} {s : Scheduler} {id : Nat} (route : Route) {status : Nat}
    (listed : status = 400 ∨ status = 404 ∨ status = 503) (message type code : Bytes) :
    Handled fe s id (.failed (route.fail status message type code)) s := by
  refine .failed _ ?_ fun full => ?_
  · rw [route.fail_status]
    rcases listed with rfl | rfl | rfl <;> decide
  · rw [route.fail_status] at full
    omega

namespace HttpServer

variable {sv : HttpServer} {ready : Bool} {route : Route} {bytes : Bytes} {cr : ParsedRequest} {s s' : Scheduler} {id : Nat}
variable {outcome : Outcome} {e : Exn}

theorem caught_handled (thrown : sv.caught route e = some outcome) : Handled sv.fe s id outcome s := by
  unfold caught at thrown
  split at thrown
  · cases thrown
  · obtain rfl := Option.some.inj thrown
    exact .of_fail route (.inl rfl) ..

theorem submitRequest_handled (parsed : cr.params.Checked ∧ 0 < cr.maxTokens ∧ 0 ≤ cr.topLogprobs ∧ cr.topLogprobs ≤ 20)
    (submitted : sv.submitRequest route cr s id = some (outcome, s')) : Handled sv.fe s id outcome s' := by
  obtain ⟨checked, positive, reported⟩ := parsed
  obtain ⟨made, given, submitted⟩ := Option.bind_eq_some_iff.mp submitted
  rcases FrontEnds.submitRequest_cases given with ⟨e, rfl⟩ | ⟨status, message, type, code, rfl, refused⟩ | ⟨req, rfl, request, fits⟩
  · obtain ⟨outcome, thrown, same⟩ := Option.bind_eq_some_iff.mp submitted
    obtain ⟨rfl, rfl⟩ := Prod.mk.inj (Option.some.inj same)
    exact caught_handled thrown
  · obtain ⟨rfl, rfl⟩ := Prod.mk.inj (Option.some.inj submitted)
    exact .of_fail route (refused.elim (fun h => .inr (.inl h)) .inl) ..
  · have admissible := FrontEnds.admissible_http request checked positive reported fits
    rcases s.submit_cases id with ⟨taken, room⟩ | ⟨rejected, full⟩
    · simp only [taken] at submitted
      obtain ⟨rfl, rfl⟩ := Prod.mk.inj (Option.some.inj submitted)
      exact .queued req cr.stream admissible room
    · simp only [rejected] at submitted
      obtain ⟨rfl, rfl⟩ := Prod.mk.inj (Option.some.inj submitted)
      refine .failed _ ?_ fun _ => full
      rw [route.fail_status]
      decide

theorem handle_handled (handled : sv.handle ready route bytes s id = some (outcome, s')) : Handled sv.fe s id outcome s' := by
  unfold handle at handled
  split at handled
  · obtain ⟨rfl, rfl⟩ := Prod.mk.inj (Option.some.inj handled)
    exact .of_fail route (.inr (.inr rfl)) ..
  · split at handled
    · obtain ⟨outcome, thrown, same⟩ := Option.map_eq_some_iff.mp handled
      obtain ⟨rfl, rfl⟩ := Prod.mk.inj same
      exact caught_handled thrown
    next parsed =>
      obtain ⟨body, -, parsed⟩ := bind_ok parsed
      exact submitRequest_handled (Route.parse_checked parsed) handled

end HttpServer

/-! ### Runs -/

namespace Intake

/-- The waiting queue over a run: bounded, its requests in the order they were accepted in, and all of them admissible;
every HTTP call was answered or accepted. -/
structure Sound (fe : FrontEnds) (maxWaiting : Int) (s : Intake) : Prop where
  bound : s.scheduler.maxWaiting = maxWaiting
  room : 0 < maxWaiting → (s.scheduler.waiting.length : Int) ≤ maxWaiting
  fifo : s.taken ++ s.scheduler.waiting = List.range s.accepted.length
  admissible : ∀ entry ∈ s.accepted, Admissible fe entry.1 entry.2
  statuses : ∀ f ∈ s.failures, f.status ∈ [400, 404, 429, 503]
  answered : s.httpCalls = s.failures.length + s.accepted.countP (·.1 = .http)

section
variable {fe : FrontEnds} {maxWaiting : Int} {s : Intake}

theorem Sound.accept (sound : s.Sound fe maxWaiting) (origin : Origin) {req : Request} (admissible : Admissible fe origin req)
    (room : 0 < s.scheduler.maxWaiting → (s.scheduler.waiting.length : Int) < s.scheduler.maxWaiting) :
    ({ s with
      scheduler := { s.scheduler with waiting := s.scheduler.waiting ++ [s.accepted.length] }
      accepted := s.accepted ++ [(origin, req)]
      httpCalls := s.httpCalls + [(origin, req)].countP (·.1 = .http) } : Intake).Sound fe maxWaiting where
  bound := sound.bound
  room := fun bounded => by
    have below := room (sound.bound ▸ bounded)
    rw [sound.bound] at below
    simp only [List.length_append, List.length_singleton]
    omega
  fifo := by
    rw [← List.append_assoc, sound.fifo, List.length_append, List.length_singleton, List.range_succ]
  admissible := fun entry member => by
    rcases List.mem_append.mp member with before | last
    · exact sound.admissible entry before
    · rw [List.mem_singleton.mp last]
      exact admissible
  statuses := sound.statuses
  answered := by
    rw [List.countP_append, ← Nat.add_assoc, ← sound.answered]

theorem Sound.offer (sound : s.Sound fe maxWaiting) {req : Request} (admissible : Admissible fe .capi req) :
    (s.offer req).Sound fe maxWaiting := by
  unfold Intake.offer
  rcases s.scheduler.submit_cases s.accepted.length with ⟨taken, room⟩ | ⟨rejected, -⟩
  · rw [taken]
    exact sound.accept .capi admissible room
  · rw [rejected]
    exact sound

/-- The worker takes requests from the front. -/
theorem Sound.take (sound : s.Sound fe maxWaiting) (batch : List Nat) {rest : List Nat} (split : s.scheduler.waiting = batch ++ rest)
    {scheduler : Scheduler} (bound : scheduler.maxWaiting = s.scheduler.maxWaiting) (left : scheduler.waiting = rest) :
    ({ s with scheduler, taken := s.taken ++ batch } : Intake).Sound fe maxWaiting where
  bound := bound.trans sound.bound
  room := fun bounded => by
    have before := sound.room bounded
    rw [split, List.length_append] at before
    rw [left]
    omega
  fifo := by
    rw [left, List.append_assoc, ← split]
    exact sound.fifo
  admissible := sound.admissible
  statuses := sound.statuses
  answered := sound.answered

end

section
variable {sv : HttpServer} {defaults : EmbedDefaults} {maxWaiting : Int} {s t : Intake} {action : IntakeStep}

theorem Sound.step (sound : s.Sound sv.fe maxWaiting) (stepped : step sv defaults s action = some t) :
    t.Sound sv.fe maxWaiting := by
  cases action with
  | http ready route bytes =>
    obtain ⟨⟨outcome, scheduler⟩, handled, stepped⟩ := Option.bind_eq_some_iff.mp stepped
    cases HttpServer.handle_handled handled with
    | failed f status _ =>
      obtain rfl := Option.some.inj stepped
      exact {
        sound with
        statuses := fun g member => by
          rcases List.mem_append.mp member with before | last
          · exact sound.statuses g before
          · rw [List.mem_singleton.mp last]
            exact status
        answered := by
          rw [List.length_append, List.length_singleton]
          exact (congrArg (· + 1) sound.answered).trans (Nat.add_right_comm ..) }
    | queued req stream admissible room =>
      obtain rfl := Option.some.inj stepped
      exact sound.accept .http admissible room
  | chat messages sampling =>
    obtain ⟨ids, -, stepped⟩ := Option.bind_eq_some_iff.mp stepped
    obtain rfl := Option.some.inj stepped
    exact sound.offer (FrontEnds.admissible_capi (FrontEnds.toParams_samples sampling) (FrontEnds.samplingMaxTokens_positive sampling))
  | text prompt sampling =>
    obtain ⟨ids, -, stepped⟩ := Option.bind_eq_some_iff.mp stepped
    obtain rfl := Option.some.inj stepped
    exact sound.offer (FrontEnds.admissible_capi (FrontEnds.toParams_samples sampling) (FrontEnds.samplingMaxTokens_positive sampling))
  | images prompt images sampling =>
    obtain rfl := Option.some.inj stepped
    exact sound.offer (FrontEnds.admissible_capi (FrontEnds.toParams_samples sampling) (FrontEnds.samplingMaxTokens_positive sampling))
  | embed text opts =>
    obtain ⟨req, made, rfl⟩ := Option.map_eq_some_iff.mp stepped
    obtain ⟨ids, -, rfl⟩ := Option.map_eq_some_iff.mp made
    exact sound.offer (FrontEnds.admissible_capi ⟨one_pos, ⟨one_pos, le_refl 1⟩, ⟨le_refl 0, zero_le_one⟩, le_refl _⟩ (Int.le.intro 63 rfl))
  | nextWaiting =>
    obtain ⟨⟨next, scheduler⟩, taken, stepped⟩ := Option.bind_eq_some_iff.mp stepped
    obtain rfl := Option.some.inj stepped
    rcases Scheduler.nextWaiting_cases taken with ⟨rfl, rfl⟩ | ⟨req, rest, rfl, rfl, split⟩
    · exact sound.take [] rfl rfl rfl
    · exact sound.take [req] split rfl rfl
  | takeWaiting max =>
    obtain rfl := Option.some.inj stepped
    exact sound.take _ (List.take_append_drop max _).symm rfl rfl
  | stop =>
    obtain rfl := Option.some.inj stepped
    exact { sound with }

theorem sound_start (fe : FrontEnds) (maxWaiting : Int) : ({ scheduler := { maxWaiting } } : Intake).Sound fe maxWaiting where
  bound := rfl
  room := fun bounded => bounded.le
  fifo := rfl
  admissible := fun _ member => absurd member List.not_mem_nil
  statuses := fun _ member => absurd member List.not_mem_nil
  answered := rfl

/-- Whatever clients send, and in whatever order the calls and the worker's takes come: only requests the worker can run
with wait for it, and an HTTP call that gets none leaves the queue as it was. Only a full queue answers 429. -/
theorem admits (reached : Reachable (step sv defaults) Free { scheduler := { maxWaiting } } s) :
    s.Sound sv.fe maxWaiting ∧ ∀ ready route bytes t, step sv defaults s (.http ready route bytes) = some t →
      (∃ f, t = { s with failures := s.failures ++ [f], httpCalls := s.httpCalls + 1 } ∧
        (f.status = 429 → 0 < maxWaiting ∧ s.scheduler.waiting.length = maxWaiting)) ∨
      ∃ req, t.accepted = s.accepted ++ [(.http, req)] ∧ t.scheduler.waiting = s.scheduler.waiting ++ [s.accepted.length] ∧
        t.failures = s.failures ∧ t.taken = s.taken := by
  have sound : s.Sound sv.fe maxWaiting := reached.invariant (sound_start sv.fe maxWaiting) fun sound _ stepped => sound.step stepped
  refine ⟨sound, fun ready route bytes t stepped => ?_⟩
  obtain ⟨⟨outcome, scheduler⟩, handled, stepped⟩ := Option.bind_eq_some_iff.mp stepped
  cases HttpServer.handle_handled handled with
  | failed f _ full =>
    obtain rfl := Option.some.inj stepped
    refine .inl ⟨f, rfl, fun overloaded => ?_⟩
    obtain ⟨bounded, reached⟩ := full overloaded
    rw [sound.bound] at bounded reached
    exact ⟨bounded, le_antisymm (sound.room bounded) reached⟩
  | queued req stream _ _ =>
    obtain rfl := Option.some.inj stepped
    exact .inr ⟨req, rfl, rfl, rfl, rfl⟩

end

/-- A server for a tokenizer with one letter. -/
def letterServer : HttpServer where
  fe := {
    tok := { impl := .bpe (.assembleGguf [ascii "a"] [] [1] "gpt2"), bosId := 0 }
    tables := ⟨(· == 0x61), fun _ => false, (· == 0x20)⟩
    date := ascii "01 Jan 2025"
    eosTokenIds := [1]
    modelName := ascii "letter"
    maxCtx := 4
    hasVisionTower := false
    imageTokenCount := fun _ => .ok 0 }
  js := ToolCallRoundTrip.readerJson
  what := fun _ => ascii "parse error"

def emptyPrompt : Bytes := ascii "\x7b\"prompt\": \"\", \"max_tokens\": 2\x7d"

/-- One place in the queue: a call too early, one that is accepted, one too many, one that is cut off, and the worker. -/
def fiveCalls : List IntakeStep :=
  [.http false .messages emptyPrompt, .http true .completions emptyPrompt, .http true .completions emptyPrompt,
    .http true .chatCompletions (ascii "\x7b"), .takeWaiting 4]

theorem admits_fiveCalls : ∃ s : Intake, s.accepted.map (fun entry => entry.2.promptIds) = [[0]] ∧ s.taken = [0] ∧
    s.failures.map (·.status) = [503, 429, 400] ∧ s.Sound letterServer.fe 1 := by
  have run : (fiveCalls.foldlM (step letterServer {}) { scheduler := { maxWaiting := 1 } }).map
      (fun s => decide (s.accepted.map (fun entry => entry.2.promptIds) = [[0]] ∧ s.taken = [0] ∧
        s.failures.map (·.status) = [503, 429, 400])) = some true := by
    decide +kernel
  obtain ⟨s, ran, seen⟩ := Option.map_eq_some_iff.mp run
  obtain ⟨prompts, taken, statuses⟩ := of_decide_eq_true seen
  exact ⟨s, prompts, taken, statuses, (admits (Reachable.of_foldlM ran)).1⟩

end Intake

end Mlxforge
