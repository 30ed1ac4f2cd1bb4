import Mlxforge.Runtime.Conservation

/-!
The worker's clock readings and the totals behind `metrics`: when a request was queued and when its first token came
out, and what an eviction adds for it. Times are exact here, where the code rounds them to a `double`.
-/

namespace Mlxforge

open Transition (Reachable)

variable {V L K G I : Type}

/-- Nanoseconds from the clock's epoch, which is what a time that was never set holds. -/
abbrev TimePoint := Int

section
variable (d : Int)

def ms : Rat := d / 1000000
def sec : Rat := d / 1000000000
def us : Rat := d / 1000

end

/-- `static_cast<long long>` of a `double`. -/
def toLong (x : Rat) : Int := if 0 ≤ x then ⌊x⌋ else ⌈x⌉

theorem toLong_nonneg {x : Rat} (positive : 0 ≤ x) : 0 ≤ toLong x := by
  rw [toLong, if_pos positive]
  exact Int.floor_nonneg.mpr positive

theorem toLong_mono {x y : Rat} (positive : 0 ≤ x) (le : x ≤ y) : toLong x ≤ toLong y := by
  rw [toLong, toLong, if_pos positive, if_pos (positive.trans le)]
  exact Int.floor_le_floor le

/-- `Request::first_token_time` after `consume`. -/
def consumeTime (req : Request) (time : TimePoint) (produced : Nat) (s : Sampled) (now : TimePoint) : TimePoint :=
  if req.eosIds.contains s.id then time else if produced = 0 then now else time

/-- The time is set where the count of tokens leaves 0. -/
theorem consumeTime_eq (req : Request) (o : Output G) (time : TimePoint) (produced : Nat) (s : Sampled) (now : TimePoint) :
    consumeTime req time produced s now = if produced = 0 ∧ 0 < (Output.consume req o produced s).2.1 then now else time := by
  unfold consumeTime Output.consume
  by_cases eos : req.eosIds.contains s.id = true
  · rw [if_pos eos, if_pos eos, if_neg]
    rintro ⟨none, some⟩
    exact absurd some (by rw [none]; exact Nat.lt_irrefl 0)
  · rw [if_neg eos, if_neg eos]
    by_cases first : produced = 0
    · rw [if_pos first, if_pos]
      refine ⟨first, ?_⟩
      dsimp only
      split <;> exact Nat.succ_pos _
    · rw [if_neg first, if_neg fun both => first both.1]

/-- What an eviction adds for one finished request. -/
structure Completion where
  request : Nat
  promptTokens : Nat
  completionTokens : Nat
  ttftUs : Int
  genUs : Int
  requestUs : Int

/-- The counters of the worker that `metrics` reads, those of the prefix cache left out. -/
structure WorkerTotals where
  decodeSteps : Nat := 0
  activeBatch : Nat := 0
  peakBatch : Nat := 0
  requestsCompleted : Nat := 0
  promptTokensTotal : Nat := 0
  completionTokensTotal : Nat := 0
  ttftUsSum : Int := 0
  genUsSum : Int := 0
  requestUsSum : Int := 0

structure WorkerMetrics where
  decodeSteps : Nat := 0
  activeBatch : Nat := 0
  peakBatch : Nat := 0
  requestsCompleted : Nat := 0
  promptTokensTotal : Nat := 0
  completionTokensTotal : Nat := 0
  avgTtftMs : Rat := 0
  avgRequestMs : Rat := 0
  avgTokensPerSecond : Rat := 0

namespace WorkerTotals

def add (t : WorkerTotals) (c : Completion) : WorkerTotals :=
  { t with
    requestsCompleted := t.requestsCompleted + 1
    promptTokensTotal := t.promptTokensTotal + c.promptTokens
    completionTokensTotal := t.completionTokensTotal + c.completionTokens
    ttftUsSum := t.ttftUsSum + c.ttftUs
    genUsSum := t.genUsSum + c.genUs
    requestUsSum := t.requestUsSum + c.requestUs }

def publish (t : WorkerTotals) (active : Nat) : WorkerTotals :=
  { t with activeBatch := active, peakBatch := if t.peakBatch < active then active else t.peakBatch }

def metrics (t : WorkerTotals) : WorkerMetrics where
  decodeSteps := t.decodeSteps
  activeBatch := t.activeBatch
  peakBatch := t.peakBatch
  requestsCompleted := t.requestsCompleted
  promptTokensTotal := t.promptTokensTotal
  completionTokensTotal := t.completionTokensTotal
  avgTtftMs := if 0 < t.requestsCompleted then t.ttftUsSum / 1000 / t.requestsCompleted else 0
  avgRequestMs := if 0 < t.requestsCompleted then t.requestUsSum / 1000 / t.requestsCompleted else 0
  avgTokensPerSecond := if 0 < t.genUsSum then t.completionTokensTotal * 1000000 / t.genUsSum else 0

/-- The totals are those of the requests `done`. -/
structure Accounts (t : WorkerTotals) (done : List Completion) : Prop where
  requestsCompleted : t.requestsCompleted = done.length
  ttftUsSum : t.ttftUsSum = (done.map Completion.ttftUs).sum
  genUsSum : t.genUsSum = (done.map Completion.genUs).sum
  requestUsSum : t.requestUsSum = (done.map Completion.requestUs).sum

variable {t : WorkerTotals} {done more : List Completion}

theorem Accounts.add (accounts : t.Accounts done) (c : Completion) : (t.add c).Accounts (done ++ [c]) := by
  constructor
  · simp [WorkerTotals.add, accounts.requestsCompleted]
  · simp [WorkerTotals.add, accounts.ttftUsSum]
  · simp [WorkerTotals.add, accounts.genUsSum]
  · simp [WorkerTotals.add, accounts.requestUsSum]

theorem Accounts.addAll (accounts : t.Accounts done) : (more.foldl WorkerTotals.add t).Accounts (done ++ more) := by
  induction more generalizing t done with
  | nil => simpa using accounts
  | cons c more ih => simpa using ih (accounts.add c)

/-- Counters that are not sums may change. -/
theorem Accounts.congr {t' : WorkerTotals} (accounts : t.Accounts done) (completed : t'.requestsCompleted = t.requestsCompleted)
    (ttft : t'.ttftUsSum = t.ttftUsSum) (gen : t'.genUsSum = t.genUsSum) (request : t'.requestUsSum = t.requestUsSum) :
    t'.Accounts done :=
  ⟨completed.trans accounts.requestsCompleted, ttft.trans accounts.ttftUsSum, gen.trans accounts.genUsSum,
    request.trans accounts.requestUsSum⟩

end WorkerTotals

namespace Completion

/-- Neither the time to the first token nor the time after it is negative or longer than the request took. -/
structure Consistent (c : Completion) : Prop where
  ttft : 0 ≤ c.ttftUs ∧ c.ttftUs ≤ c.requestUs
  gen : 0 ≤ c.genUs ∧ c.genUs ≤ c.requestUs

def longestUs (done : List Completion) : Int := (done.map Completion.requestUs).foldr max 0

theorem le_longestUs {done : List Completion} {c : Completion} (member : c ∈ done) : c.requestUs ≤ longestUs done := by
  induction done with
  | nil => cases member
  | cons first rest ih =>
    rcases List.mem_cons.mp member with rfl | member
    · exact le_max_left _ _
    · exact (ih member).trans (le_max_right _ _)

theorem longestUs_nonneg (done : List Completion) : 0 ≤ longestUs done := by
  cases done with
  | nil => exact le_rfl
  | cons first rest =>
    induction rest generalizing first with
    | nil => exact le_max_right _ _
    | cons second rest ih => exact (ih second).trans (le_max_right _ _)

/-- An average over the completed requests of a time that is at most the request's. -/
theorem average_bounds {done : List Completion} {f : Completion → Int}
    (bounds : ∀ c ∈ done, 0 ≤ f c ∧ f c ≤ c.requestUs) (some : 0 < done.length) :
    0 ≤ (((done.map f).sum : Int) : Rat) / 1000 / (done.length : Nat) ∧
      (((done.map f).sum : Int) : Rat) / 1000 / (done.length : Nat) ≤ (longestUs done : Rat) / 1000 := by
  have positive : 0 ≤ (done.map f).sum := by
    refine List.sum_nonneg fun x member => ?_
    obtain ⟨c, among, rfl⟩ := List.mem_map.mp member
    exact (bounds c among).1
  have below : (done.map f).sum ≤ done.length * longestUs done := by
    have each := List.sum_le_card_nsmul (done.map f) (longestUs done) fun x member => by
      obtain ⟨c, among, rfl⟩ := List.mem_map.mp member
      exact (bounds c among).2.trans (le_longestUs among)
    simpa using each
  have count : (0 : Rat) < (done.length : Nat) := by exact_mod_cast some
  have positive : (0 : Rat) ≤ ((done.map f).sum : Int) := by exact_mod_cast positive
  have below : (((done.map f).sum : Int) : Rat) ≤ (done.length : Nat) * (longestUs done : Rat) := by exact_mod_cast below
  constructor
  · positivity
  · rw [div_le_iff₀ count, div_mul_eq_mul_div]
    refine div_le_div_of_nonneg_right ?_ (by norm_num)
    rwa [mul_comm]

end Completion

/-! ### The engine with its clock -/

namespace Worker

variable (w : Worker V K G)

/-- Whether the request has a row that has emitted a token. -/
def hasEmitted (r : Nat) : Bool :=
  (List.range w.reqs.length).any fun b => (w.row? b).any fun row => row.req == r && decide (0 < row.produced)

/-- What `evict_finished` adds for the row. -/
def completion (enqueueTime firstTokenTime : Nat → TimePoint) (now : TimePoint) (row : Row K) : Completion where
  request := row.req
  promptTokens := (w.out row.req).promptIds.length
  completionTokens := row.produced
  ttftUs := toLong (ms (firstTokenTime row.req - enqueueTime row.req) * 1000)
  genUs := toLong (sec (now - firstTokenTime row.req) * 1000000)
  requestUs := toLong (us (now - enqueueTime row.req))

/-- The finished rows in their order. -/
def finishedRows : List (Row K) :=
  ((List.range w.finished.length).filterMap w.row?).filter Row.finished

end Worker

/-- The engine, the times its requests hold, and the totals; `clock` is the worker's last reading. -/
structure ClockedEngine (V K G : Type) where
  engine : EngineState V K G
  clock : TimePoint := 0
  enqueueTime : Nat → TimePoint := fun _ => 0
  firstTokenTime : Nat → TimePoint := fun _ => 0
  totals : WorkerTotals := {}
  completions : List Completion := []

/-- A step with its clock readings: `reads r` where `consume` stamps request `r`, and `now` where a submission or an
eviction reads the clock; the worker's next reading is no earlier. -/
structure ClockedAction where
  action : EngineAction
  reads : Nat → TimePoint
  now : TimePoint

namespace ClockedEngine

/-- `first_token_time` of all requests after a step of the worker from `w` to `w'`. -/
def stamp (reads : Nat → TimePoint) (w w' : Worker V K G) (time : Nat → TimePoint) : Nat → TimePoint := fun r =>
  if w'.hasEmitted r && !w.hasEmitted r then reads r else time r

/-- What one step of the worker does to the totals and to the list of completed requests. -/
def account (s : ClockedEngine V K G) (w' : Worker V K G) (now : TimePoint) : WorkerTotals × List Completion :=
  let done := s.engine.worker.finishedRows.map (s.engine.worker.completion s.enqueueTime s.firstTokenTime now)
  match s.engine.location with
  | .evicting => (done.foldl WorkerTotals.add s.totals, s.completions ++ done)
  | .evictingDecoded => ((done.foldl WorkerTotals.add s.totals).publish w'.reqs.length, s.completions ++ done)
  | .decoding => ({ s.totals with decodeSteps := s.totals.decodeSteps + 1 }, s.completions)
  | _ => (s.totals, s.completions)

variable [Slot V] (env : WorkerEnv V L K G I)

def step (s : ClockedEngine V K G) (a : ClockedAction) : Option (ClockedEngine V K G) := do
  let engine ← s.engine.step env a.action
  match a.action with
  | .submit =>
    return { s with
      engine
      enqueueTime := if (s.engine.sched.submit s.engine.next).1 then Function.update s.enqueueTime s.engine.next a.now
        else s.enqueueTime }
  | .worker _ =>
    let (totals, completions) := s.account engine.worker a.now
    return { s with
      engine
      clock := a.now
      firstTokenTime := stamp a.reads s.engine.worker engine.worker s.firstTokenTime
      totals
      completions }
  | _ => return { s with engine }

def start (maxWaiting : Int) : ClockedEngine V K G where
  engine := EngineState.start env maxWaiting

omit [Slot V] in
/-- A monotone clock: the worker's readings do not go back, and it reads the clock for a request after the request was
queued. -/
def OnTime (s : ClockedEngine V K G) (a : ClockedAction) : Prop :=
  match a.action with
  | .worker _ => ∀ r, s.clock ≤ a.reads r ∧ a.reads r ≤ a.now ∧
      (r ∈ s.engine.accepted → r ∉ s.engine.sched.waiting → s.enqueueTime r ≤ a.reads r)
  | _ => True

omit [Slot V] in
/-- Wherever the worker evicts next, every finished row has emitted a token. -/
def Spoken (s : ClockedEngine V K G) (a : ClockedAction) : Prop :=
  match a.action with
  | .worker _ => s.engine.location = .evicting ∨ s.engine.location = .evictingDecoded →
      ∀ row ∈ s.engine.worker.finishedRows, 0 < row.produced
  | _ => True

/-! ### A stamp is what `consume` sets -/

end ClockedEngine

namespace Worker

variable {w w' : Worker V K G} {rows : List (Row K)} {env : WorkerEnv V L K G I} {flags : List Nat}

theorem hasEmitted_iff (r : Nat) :
    w.hasEmitted r = true ↔ ∃ b row, w.row? b = some row ∧ row.req = r ∧ 0 < row.produced := by
  simp only [hasEmitted, List.any_eq_true, List.mem_range, Option.any_eq_true, Bool.and_eq_true, beq_iff_eq,
    decide_eq_true_eq]
  constructor
  · rintro ⟨b, -, row, found, same, emitted⟩
    exact ⟨b, row, found, same, emitted⟩
  · rintro ⟨b, row, found, same, emitted⟩
    refine ⟨b, ?_, row, found, same, emitted⟩
    obtain ⟨req, at_b, -⟩ := Option.bind_eq_some_iff.mp found
    exact (List.getElem?_eq_some_iff.mp at_b).1

/-- Only a request with a row has emitted. -/
theorem mem_reqs_of_hasEmitted {r : Nat} (emitted : w.hasEmitted r = true) : r ∈ w.reqs := by
  obtain ⟨b, row, found, rfl, -⟩ := (hasEmitted_iff r).mp emitted
  obtain ⟨req, at_b, rest⟩ := Option.bind_eq_some_iff.mp found
  have same : req = row.req := by
    simp only [Option.bind_eq_bind, Option.bind_eq_some_iff, Option.some.injEq, Option.pure_def] at rest
    obtain ⟨_, -, _, -, _, -, _, -, _, -, rfl⟩ := rest
    rfl
  exact same ▸ List.mem_of_getElem? at_b

theorem Aligned.hasEmitted (aligned : w.Aligned rows) (distinct : (rows.map Row.req).Nodup) {row : Row K}
    (member : row ∈ rows) : w.hasEmitted row.req = decide (0 < row.produced) := by
  rw [Bool.eq_iff_iff, decide_eq_true_eq, hasEmitted_iff]
  constructor
  · rintro ⟨b, other, found, same, emitted⟩
    rw [aligned.row?] at found
    have unique := List.inj_on_of_nodup_map distinct (List.mem_of_getElem? found) member same
    exact unique ▸ emitted
  · intro emitted
    obtain ⟨b, at_b⟩ := List.mem_iff_getElem?.mp member
    exact ⟨b, row, (aligned.row? b).trans at_b, rfl, emitted⟩

theorem mem_finishedRows {row : Row K} (member : row ∈ w.finishedRows) : ∃ b, w.row? b = some row := by
  obtain ⟨among, -⟩ := List.mem_filter.mp member
  obtain ⟨b, -, found⟩ := List.mem_filterMap.mp among
  exact ⟨b, found⟩

theorem firstToken_produced (s : Sampled) (row : Row K) (o : Output G) : (firstToken env flags s row o).1.produced =
    if row.req ∈ flags then row.produced
    else (Output.consume (env.request row.req) (advanceGrammar env o s.id) row.produced s).2.1 := by
  simp only [firstToken, List.contains_iff_mem]
  split <;> rfl

theorem nextToken_produced (s : Sampled) (row : Row K) (o : Output G) : (nextToken env flags s row o).1.produced =
    if row.finished = true ∨ row.req ∈ flags then row.produced
    else (Output.consume (env.request row.req) (advanceGrammar env o s.id) row.produced s).2.1 := by
  simp only [nextToken, List.contains_iff_mem]
  by_cases done : row.finished = true
  · rw [if_pos done, if_pos (.inl done)]
  · by_cases flagged : row.req ∈ flags
    · rw [if_neg done, if_pos flagged, if_pos (.inr flagged)]
    · rw [if_neg done, if_neg flagged, if_neg (not_or.mpr ⟨done, flagged⟩)]

/-- A decode step stamps a row as `consume` does, where it gets to the row's token. -/
theorem stamp_decodeStep [Slot V] (aligned : w.Aligned rows) (distinct : (rows.map Row.req).Nodup)
    (ok : w.decodeStep env flags = .ok w') (reads time : Nat → TimePoint) {row : Row K} (member : row ∈ rows) :
    ∃ l s, sampleRow env (env.request row.req) (w.out row.req) row l = .ok s ∧
      ClockedEngine.stamp reads w w' time row.req = if row.finished = true ∨ row.req ∈ flags then time row.req
        else consumeTime (env.request row.req) (time row.req) row.produced s (reads row.req) := by
  obtain ⟨_, _, logits, -, -, -, ⟨rows', aligned', names, each⟩, -⟩ := decodeStep_spec aligned distinct ok
  obtain ⟨b, at_b⟩ := List.mem_iff_getElem?.mp member
  obtain ⟨row', at_b', s, sampled, ran⟩ := each b row at_b
  have same : row'.req = row.req := by
    have columns := congrArg (·[b]?) names
    simpa only [List.getElem?_map, at_b, at_b', Option.map_some, Option.some.injEq] using columns
  have after : w'.hasEmitted row.req = decide (0 < row'.produced) :=
    same ▸ aligned'.hasEmitted (names ▸ distinct) (List.mem_of_getElem? at_b')
  refine ⟨_, s, sampled, ?_⟩
  have produced : row'.produced = if row.finished = true ∨ row.req ∈ flags then row.produced
      else (Output.consume (env.request row.req) (advanceGrammar env (w.out row.req) s.id) row.produced s).2.1 := by
    rw [show row' = (nextToken env flags s (keyUsed env row) (w.out row.req)).1 from congrArg Prod.fst ran]
    exact nextToken_produced s (keyUsed env row) (w.out row.req)
  rw [ClockedEngine.stamp, after, aligned.hasEmitted distinct member, produced]
  split
  · simp
  · rw [consumeTime_eq _ (advanceGrammar env (w.out row.req) s.id)]
    simp [and_comm]

/-- So does a registration, whose rows have emitted nothing before. -/
theorem stamp_registerRows {ids : List Nat} {logits : List L} (aligned : w.Aligned rows)
    (distinct : (rows.map Row.req ++ ids).Nodup) (ok : w.registerRows env flags ids logits = .ok w')
    (reads time : Nat → TimePoint) {r : Nat} (member : r ∈ ids) :
    ∃ l s, sampleRow env (env.request r) (compiled env r (w.out r)) (freshRow env (w.out r) r) l = .ok s ∧
      ClockedEngine.stamp reads w w' time r = if r ∈ flags then time r
        else consumeTime (env.request r) (time r) 0 s (reads r) := by
  obtain ⟨new, aligned', names, each, -⟩ := registerRows_spec aligned distinct ok
  obtain ⟨i, at_i⟩ := List.mem_iff_getElem?.mp member
  obtain ⟨l, row, -, at_i', s, sampled, ran⟩ := each i r at_i
  have same : row.req = r := by
    have columns := congrArg (·[i]?) names
    simpa only [List.getElem?_map, at_i, at_i', Option.map_some, Option.some.injEq] using columns
  have after : w'.hasEmitted r = decide (0 < row.produced) := by
    have unique : ((rows ++ new).map Row.req).Nodup := by rwa [List.map_append, names]
    exact same ▸ aligned'.hasEmitted unique (List.mem_append_right _ (List.mem_of_getElem? at_i'))
  have before : w.hasEmitted r = false := by
    by_contra emitted
    have among := mem_reqs_of_hasEmitted (Bool.of_not_eq_false emitted)
    rw [aligned.reqs] at among
    exact (List.nodup_append.mp distinct).2.2 r among r member rfl
  refine ⟨l, s, sampled, ?_⟩
  have produced : row.produced = if r ∈ flags then 0
      else (Output.consume (env.request r) (advanceGrammar env (compiled env r (w.out r)) s.id) 0 s).2.1 := by
    rw [show row = (firstToken env flags s (keyUsed env (freshRow env (w.out r) r)) (compiled env r (w.out r))).1 from
      congrArg Prod.fst ran]
    exact firstToken_produced s (keyUsed env (freshRow env (w.out r) r)) _
  rw [ClockedEngine.stamp, after, before, produced]
  split
  · simp
  · rw [consumeTime_eq _ (advanceGrammar env (compiled env r (w.out r)) s.id)]
    simp

end Worker

/-! ### Whole runs -/

namespace ClockedEngine

variable [Slot V] {env : WorkerEnv V L K G I} {s s' : ClockedEngine V K G} {a : ClockedAction} {maxWaiting : Int}

/-- What every step keeps: a request that has emitted was queued before its first token, which came out before now, and
every completed request was added to the totals with consistent times. -/
structure Timely (s : ClockedEngine V K G) : Prop where
  inv : EngineState.Inv (fun _ _ => True) (fun _ _ => True) s.engine
  times : ∀ r, s.engine.worker.hasEmitted r = true →
    s.enqueueTime r ≤ s.firstTokenTime r ∧ s.firstTokenTime r ≤ s.clock
  accounts : s.totals.Accounts s.completions
  consistent : ∀ c ∈ s.completions, c.Consistent

omit [Slot V] in
/-- A row whose three times are in order is completed with consistent ones. -/
theorem completion_consistent (w : Worker V K G) {enqueueTime firstTokenTime : Nat → TimePoint} {now : TimePoint}
    {row : Row K} (queued : enqueueTime row.req ≤ firstTokenTime row.req) (emitted : firstTokenTime row.req ≤ now) :
    (w.completion enqueueTime firstTokenTime now row).Consistent := by
  have queued : (0 : Rat) ≤ (firstTokenTime row.req - enqueueTime row.req : Int) := by
    exact_mod_cast Int.sub_nonneg_of_le queued
  have emitted : (0 : Rat) ≤ (now - firstTokenTime row.req : Int) := by exact_mod_cast Int.sub_nonneg_of_le emitted
  have whole : ((now - enqueueTime row.req : Int) : Rat) =
      (now - firstTokenTime row.req : Int) + (firstTokenTime row.req - enqueueTime row.req : Int) := by
    push_cast
    ring
  have ttft : ms (firstTokenTime row.req - enqueueTime row.req) * 1000 =
      ((firstTokenTime row.req - enqueueTime row.req : Int) : Rat) / 1000 := by
    rw [ms]
    ring
  have gen : sec (now - firstTokenTime row.req) * 1000000 = ((now - firstTokenTime row.req : Int) : Rat) / 1000 := by
    rw [sec]
    ring
  constructor
  · simp only [Worker.completion, ttft, us]
    refine ⟨toLong_nonneg (by positivity), toLong_mono (by positivity) ?_⟩
    exact div_le_div_of_nonneg_right (by rw [whole]; linarith) (by norm_num)
  · simp only [Worker.completion, gen, us]
    refine ⟨toLong_nonneg (by positivity), toLong_mono (by positivity) ?_⟩
    exact div_le_div_of_nonneg_right (by rw [whole]; linarith) (by norm_num)

omit [Slot V] in
/-- A request with a row was accepted and taken from the queue. -/
theorem taken_of_hasEmitted {e : EngineState V K G} (inv : EngineState.Inv (fun _ _ => True) (fun _ _ => True) e) {r : Nat}
    (emitted : e.worker.hasEmitted r = true) : r ∈ e.accepted ∧ r < e.next ∧ r ∉ e.sched.waiting := by
  have member : r ∈ Worker.live e.hand e.worker := List.mem_append_right _ (Worker.mem_reqs_of_hasEmitted emitted)
  have accepted := inv.known r (List.mem_append_right _ member)
  exact ⟨accepted, inv.numbered r accepted, fun queued => inv.apart (.inl queued) member⟩

omit [Slot V] in
theorem Timely.account (timely : s.Timely) (w' : Worker V K G) {now : TimePoint} (later : s.clock ≤ now)
    (spoken : s.engine.location = .evicting ∨ s.engine.location = .evictingDecoded →
      ∀ row ∈ s.engine.worker.finishedRows, 0 < row.produced) :
    (s.account w' now).1.Accounts (s.account w' now).2 ∧ ∀ c ∈ (s.account w' now).2, c.Consistent := by
  have evicted : (s.engine.location = .evicting ∨ s.engine.location = .evictingDecoded) →
      ∀ c ∈ s.completions ++
        s.engine.worker.finishedRows.map (s.engine.worker.completion s.enqueueTime s.firstTokenTime now),
      c.Consistent := by
    intro evicts c member
    rcases List.mem_append.mp member with old | new
    · exact timely.consistent c old
    · obtain ⟨row, among, rfl⟩ := List.mem_map.mp new
      obtain ⟨b, found⟩ := Worker.mem_finishedRows among
      obtain ⟨queued, emitted⟩ := timely.times row.req
        ((Worker.hasEmitted_iff row.req).mpr ⟨b, row, found, rfl, spoken evicts row among⟩)
      exact completion_consistent _ queued (emitted.trans later)
  unfold ClockedEngine.account
  cases location : s.engine.location with
  | evicting => exact ⟨timely.accounts.addAll, evicted (.inl location)⟩
  | evictingDecoded => exact ⟨timely.accounts.addAll.congr rfl rfl rfl rfl, evicted (.inr location)⟩
  | decoding => exact ⟨timely.accounts.congr rfl rfl rfl rfl, timely.consistent⟩
  | _ => exact ⟨timely.accounts, timely.consistent⟩

theorem Timely.step (timely : s.Timely) (onTime : s.OnTime a) (spoken : s.Spoken a) (stepped : s.step env a = some s') :
    s'.Timely := by
  obtain ⟨engine, moved, stepped⟩ := Option.bind_eq_some_iff.mp stepped
  have inv := timely.inv.step EngineState.anyLaw (EngineState.any_careful _ _) moved
  obtain ⟨action, reads, now⟩ := a
  cases action with
  | submit =>
    obtain rfl := Option.some.inj stepped
    obtain rfl := Option.some.inj moved
    refine ⟨inv, fun r emitted => ?_, timely.accounts, timely.consistent⟩
    have other : r ≠ s.engine.next := (taken_of_hasEmitted timely.inv emitted).2.1.ne
    have same : (if (s.engine.sched.submit s.engine.next).1 then Function.update s.enqueueTime s.engine.next now
        else s.enqueueTime) r = s.enqueueTime r := by
      split
      · exact Function.update_of_ne other _ _
      · rfl
    dsimp only
    rw [same]
    exact timely.times r emitted
  | cancel r =>
    obtain rfl := Option.some.inj stepped
    obtain rfl := Option.some.inj moved
    exact ⟨inv, timely.times, timely.accounts, timely.consistent⟩
  | stop =>
    obtain rfl := Option.some.inj stepped
    obtain rfl := Option.some.inj moved
    exact ⟨inv, timely.times, timely.accounts, timely.consistent⟩
  | worker flags =>
    obtain rfl := Option.some.inj stepped
    have later : s.clock ≤ now := (onTime 0).1.trans (onTime 0).2.1
    obtain ⟨accounts, consistent⟩ := timely.account engine.worker later spoken
    refine ⟨inv, fun r emitted => ?_, accounts, consistent⟩
    obtain ⟨after, before, caused⟩ := onTime r
    have emitted : engine.worker.hasEmitted r = true := emitted
    simp only [stamp, emitted, Bool.true_and, Bool.not_eq_true']
    by_cases already : s.engine.worker.hasEmitted r = true
    · obtain ⟨queued, first⟩ := timely.times r already
      rw [if_neg (by simp [already])]
      exact ⟨queued, first.trans later⟩
    · rw [Bool.not_eq_true] at already
      rw [if_pos already]
      -- its first row stands in the batch since this step, so it was taken before it
      have known : r ∈ s.engine.accepted ∧ r ∉ s.engine.sched.waiting := by
        unfold EngineState.step at moved
        dsimp only at moved
        split at moved
        · have worked := EngineState.workerStep_worked EngineState.anyLaw timely.inv (EngineState.any_careful _ _) moved
          obtain ⟨accepted, -, waiting⟩ := taken_of_hasEmitted inv emitted
          obtain ⟨_, -, -, same⟩ | ⟨queue, -, -⟩ := worked.what
          · rw [same, already] at emitted
            cases emitted
          · exact ⟨worked.accepted ▸ accepted, queue ▸ waiting⟩
        · cases moved
      exact ⟨caused known.1 known.2, before⟩

omit [Slot V] in
theorem start_timely (env : WorkerEnv V L K G I) (maxWaiting : Int) : (start env maxWaiting).Timely where
  inv := EngineState.start_inv env maxWaiting
  times := by
    intro r emitted
    cases Worker.mem_reqs_of_hasEmitted emitted
  accounts := ⟨rfl, rfl, rfl, rfl⟩
  consistent := nofun

/-- Over every run in which a finished row has emitted a token before it is evicted, the times added to the totals are
consistent, and the averages lie between 0 and the longest request's time. -/
theorem metrics_consistent
    (reached : Reachable (step env) (fun s a => s.OnTime a ∧ s.Spoken a) (start env maxWaiting) s) :
    (∀ c ∈ s.completions, c.Consistent) ∧ s.totals.Accounts s.completions ∧
      (0 ≤ s.totals.metrics.avgTtftMs ∧ s.totals.metrics.avgTtftMs ≤ Completion.longestUs s.completions / 1000) ∧
      (0 ≤ s.totals.metrics.avgRequestMs ∧ s.totals.metrics.avgRequestMs ≤ Completion.longestUs s.completions / 1000) ∧
      0 ≤ s.totals.metrics.avgTokensPerSecond := by
  have timely : s.Timely := reached.invariant (start_timely env maxWaiting) fun timely allowed stepped =>
    timely.step allowed.1 allowed.2 stepped
  have none : (0 : Rat) ≤ Completion.longestUs s.completions / 1000 := by
    have positive : (0 : Rat) ≤ Completion.longestUs s.completions := by
      exact_mod_cast Completion.longestUs_nonneg s.completions
    positivity
  refine ⟨timely.consistent, timely.accounts, ?_, ?_, ?_⟩
  · unfold WorkerTotals.metrics
    dsimp only
    rw [timely.accounts.requestsCompleted, timely.accounts.ttftUsSum]
    split
    next some => exact Completion.average_bounds (fun c member => (timely.consistent c member).ttft) some
    next => exact ⟨le_rfl, none⟩
  · unfold WorkerTotals.metrics
    dsimp only
    rw [timely.accounts.requestsCompleted, timely.accounts.requestUsSum]
    split
    next some =>
      refine Completion.average_bounds (fun c member => ⟨?_, le_rfl⟩) some
      exact (timely.consistent c member).ttft.1.trans (timely.consistent c member).ttft.2
    next => exact ⟨le_rfl, none⟩
  · unfold WorkerTotals.metrics
    dsimp only
    split
    next positive =>
      have positive : (0 : Rat) < s.totals.genUsSum := by exact_mod_cast positive
      positivity
    next => exact le_rfl

/-! ### One request over a small model -/

/-- Every sampled token is 1, which ends the requests where `eosIds` has it. -/
def oneToken (eosIds : List Int) : WorkerEnv Int Int Unit Unit Unit :=
  { EngineState.twoRequests fun _ => 1 with request := fun _ => { promptIds := [1], maxTokens := 1, eosIds } }

/-- A step whose clock readings are all `p.2`. -/
def timed (p : EngineAction × TimePoint) : ClockedAction := ⟨p.1, fun _ => p.2, p.2⟩

/-- The time of the step is past, and so is the queueing of every accepted request. -/
def Past (s : ClockedEngine V K G) (p : EngineAction × TimePoint) : Prop :=
  s.clock ≤ p.2 ∧ ∀ r ∈ s.engine.accepted, s.enqueueTime r ≤ p.2

instance (s : ClockedEngine V K G) (p : EngineAction × TimePoint) : Decidable (s.Past p) :=
  inferInstanceAs (Decidable (_ ∧ _))

omit [Slot V] in
theorem Past.onTime {p : EngineAction × TimePoint} (past : s.Past p) : s.OnTime (timed p) := by
  obtain ⟨action, now⟩ := p
  cases action with
  | worker flags => exact fun r => ⟨past.1, le_rfl, fun accepted _ => past.2 r accepted⟩
  | _ => trivial

instance (s : ClockedEngine V K G) (a : ClockedAction) : Decidable (s.Spoken a) :=
  match a with
  | ⟨.worker _, _, _⟩ => inferInstanceAs (Decidable (s.engine.location = .evicting ∨ s.engine.location = .evictingDecoded →
      ∀ row ∈ s.engine.worker.finishedRows, 0 < row.produced))
  | ⟨.submit, _, _⟩ => isTrue trivial
  | ⟨.cancel _, _, _⟩ => isTrue trivial
  | ⟨.stop, _, _⟩ => isTrue trivial

/-- A request is queued at 5 ms, gets its first token at 7 ms and is evicted at 9 ms. -/
def admitOne : List (EngineAction × TimePoint) :=
  (.submit, 5000000) :: List.replicate 4 (.worker [], 7000000) ++ [(.worker [], 9000000)]

theorem metrics_consistent_oneToken : ∃ s, Reachable (step (oneToken [])) (fun s a => s.OnTime a ∧ s.Spoken a)
      (start (oneToken []) 0) s ∧ s.totals.metrics.avgTtftMs = 2 ∧ s.totals.metrics.avgRequestMs = 4 ∧
      Completion.longestUs s.completions = 4000 ∧ ∀ c ∈ s.completions, c.Consistent := by
  have run : (admitOne.foldlM (fun s p => if Past s p ∧ s.Spoken (timed p) then step (oneToken []) s (timed p) else none)
      (start (oneToken []) 0)).map (fun s => decide (s.totals.metrics.avgTtftMs = 2 ∧ s.totals.metrics.avgRequestMs = 4 ∧
        Completion.longestUs s.completions = 4000)) = some true := by
    decide +kernel
  obtain ⟨s, ran, values⟩ := Option.map_eq_some_iff.mp run
  obtain ⟨ttft, request, longest⟩ := of_decide_eq_true values
  have reached : Reachable (step (oneToken [])) (fun s a => s.OnTime a ∧ s.Spoken a) (start (oneToken []) 0) s :=
    (Reachable.of_allowed ran).map timed (fun _ _ => rfl) fun s p both => ⟨both.1.onTime, both.2⟩
  exact ⟨s, reached, ttft, request, longest, (metrics_consistent reached).1⟩

/-- The first sampled token ends the request: its first-token time is still the clock's epoch, and the time to it is
negative, with the average. -/
theorem ttft_negative : ∃ s, Reachable (step (oneToken [1])) OnTime (start (oneToken [1]) 0) s ∧
    (∃ c ∈ s.completions, c.ttftUs = -5000 ∧ c.genUs = 9000 ∧ c.requestUs = 4000 ∧ ¬c.Consistent) ∧
    s.totals.metrics.avgTtftMs = -5 := by
  have run : (admitOne.foldlM (fun s p => if Past s p then step (oneToken [1]) s (timed p) else none)
      (start (oneToken [1]) 0)).map (fun s : ClockedEngine Int Unit Unit => decide (s.totals.metrics.avgTtftMs = -5 ∧
        ∃ c ∈ s.completions, c.ttftUs = -5000 ∧ c.genUs = 9000 ∧ c.requestUs = 4000)) = some true := by
    decide +kernel
  obtain ⟨s, ran, values⟩ := Option.map_eq_some_iff.mp run
  obtain ⟨average, c, member, ttft, gen, request⟩ := of_decide_eq_true values
  refine ⟨s, (Reachable.of_allowed ran).map timed (fun _ _ => rfl) fun s p past => past.onTime, ⟨c, member, ttft, gen,
    request, fun consistent => ?_⟩, average⟩
  have positive := consistent.ttft.1
  rw [ttft] at positive
  exact absurd positive (by decide)

end ClockedEngine

end Mlxforge
