import Mlxforge.Runtime.ServedPool

/-!
Whole runs of an engine that serves a text decoder: whatever is batched, queued, matched or evicted beside it, a greedy
request gets what single-stream generation gives for its prompt.
-/

namespace Mlxforge

open Transition (Reachable)
open Worker (RowLaw Registered Decoded Untouched Recalls)

variable {V H Q L K G I : Type} [Slot V]

section
variable {env : WorkerEnv V L K G I} {m : DecoderModel V H Q L} {greedy : L → Int} {record : L → Int → TokenLogprob Rat}
  {cancelled cancelled' flags : List Nat} {w w' : Worker V K G}

/-! ### What is recorded of a row -/

/-- With a prefix cache, a row records its prompt and what follows it. -/
def Recorded (env : WorkerEnv V L K G I) (o : Output G) (row : Row K) : Prop :=
  env.prefixCfg.enabled = true → o.promptIds <+: row.history

omit [Slot V] in
theorem recorded_law (env : WorkerEnv V L K G I) : RowLaw (K := K) (G := G) env (Recorded env) fun _ _ => True where
  first := by
    intro flags before r l row after _ registered _
    obtain ⟨s, -, ran⟩ := registered
    have history : row.history = before.promptIds ++ [s.id] := by
      rw [show row = _ from congrArg Prod.fst ran]
      simp only [Worker.firstToken]
      split <;> rfl
    have prompt : after.promptIds = before.promptIds := by
      rw [show after = _ from congrArg Prod.snd ran, Worker.firstToken_prompt, Worker.compiled_promptIds]
    rw [history, prompt]
    exact List.prefix_append _ _
  next := by
    intro flags before row l row' after held decoded on
    obtain ⟨s, -, ran⟩ := decoded
    have history : row.history <+: row'.history := by
      rw [show row' = _ from congrArg Prod.fst ran]
      simp only [Worker.nextToken]
      split
      · exact List.prefix_rfl
      · split
        · exact List.prefix_rfl
        · exact List.prefix_append _ _
    have prompt : after.promptIds = before.promptIds := by
      rw [show after = _ from congrArg Prod.snd ran, Worker.nextToken_prompt]
    rw [prompt]
    exact (held on).trans history
  evicted := fun _ _ _ => trivial
  quit := fun _ _ _ => trivial

theorem Ended.mono {r : Nat} {o : Output G} (more : cancelled ⊆ cancelled') (ended : Ended env m greedy cancelled r o) :
    Ended env m greedy cancelled' r o :=
  ended.imp_right (Or.imp_right fun ⟨part, reason, flag⟩ => ⟨part, reason, more flag⟩)

/-- More may be cancelled. -/
theorem Worker.Serving.mono (more : cancelled ⊆ cancelled') (serving : w.Serving env m greedy record cancelled) :
    w.Serving env m greedy record cancelled' := by
  obtain ⟨rows, contexts, aligned, held, fits⟩ := serving.rows
  refine ⟨⟨rows, contexts, aligned, held, fits.imp fun row context fit => ⟨fit.starts, fun plain => ?live⟩⟩, serving.steady,
    fun r plain absent closed => ?settled⟩
  case live =>
    have live := fit.live plain
    exact ⟨live.steady, live.closes, live.state.imp_right fun ⟨done, ended⟩ => ⟨done, ended.mono more⟩⟩
  case settled =>
    obtain ⟨ended, closes⟩ := serving.settled r plain absent closed
    exact ⟨ended.mono more, closes⟩

end

namespace EngineState

variable {env : WorkerEnv V L K G I} {m : DecoderModel V H Q L} {greedy : L → Int} {record : L → Int → TokenLogprob Rat}
  {s s' : EngineState V K G} {a : EngineAction} {flags : List Nat} {maxWaiting : Int}

omit [Slot V] in
/-- Where the prefix cache is on, an eviction that removes a row removes the one in front. -/
def Prudent (env : WorkerEnv V L K G I) (s : EngineState V K G) (a : EngineAction) : Prop :=
  env.prefixCfg.enabled = true → s.Orderly a

omit [Slot V] in
theorem prudent_careful (s : EngineState V K G) (a : EngineAction) (prudent : s.Prudent env a) : s.Careful (Recorded env) a := by
  by_cases on : env.prefixCfg.enabled = true
  · exact orderly_careful s a (prudent on)
  · cases a with
    | worker flags => exact fun _ => .inl fun _ here => absurd here on
    | _ => trivial

/-- What every step keeps. -/
structure Served (env : WorkerEnv V L K G I) (m : DecoderModel V H Q L) (greedy : L → Int)
    (record : L → Int → TokenLogprob Rat) (s : EngineState V K G) : Prop where
  supplied : s.Supplied env
  serving : s.worker.Serving env m greedy record s.cancelled
  units : s.worker.Units env m
  pooled : s.worker.Pooled env m
  clean : s.worker.Clean
  batch : s.location = .decoding → s.worker.reqs ≠ []

theorem start_served (maxWaiting : Int) :
    Served env m greedy record (start (K := K) (G := G) env maxWaiting) where
  supplied := start_supplied env maxWaiting
  serving := by
    refine ⟨⟨[], [], ⟨rfl, rfl, rfl, rfl, rfl, rfl⟩, rfl, .nil⟩, fun r plain => ⟨rfl, ?_, fun _ => rfl⟩, fun r _ _ closed => ?_⟩
    · simp [wantedRecords, DecoderModel.records, start]
    · exact absurd rfl closed
  units := List.forall_mem_nil _
  pooled := by
    refine ⟨fun off => if_neg (by simp [off]), fun pool found => ?_⟩
    simp only [start] at found
    split at found
    · obtain rfl := Option.some.inj found
      exact ⟨rfl, List.forall_mem_nil _, List.forall_mem_nil _⟩
    · cases found
  clean := List.forall_mem_nil _
  batch := fun location => by cases location

omit [Slot V] in
theorem aligned_unique {w : Worker V K G} {rows rows' : List (Row K)} (aligned : w.Aligned rows) (aligned' : w.Aligned rows') :
    rows = rows' := List.ext_getElem? fun b => by rw [← aligned.row?, aligned'.row?]

/-- Every row of the batch records its prompt, where the pool may come to ask. -/
theorem Served.recalls (served : Served env m greedy record s) (inv : Inv (Recorded env) (fun _ _ => True) s)
    (on : env.prefixCfg.enabled = true) (rows : List (Row K)) (aligned : s.worker.Aligned rows) :
    ∀ row ∈ rows, (env.request row.req).isMultimodal = false → Recalls env row := by
  obtain ⟨rows', aligned', each⟩ := inv.tracked.rows
  obtain rfl := aligned_unique aligned aligned'
  intro row member text
  have recorded := (each row member).2 (fun botched => by cases served.clean _ botched) on
  rwa [served.supplied.worker.prompts _ text] at recorded

theorem workerStep_served (serves : env.Serves m greedy record) (keyed : env.prefixCfg.enabled = true → env.Keyed)
    (counted : Inv (fun _ _ => True) (fun _ _ => True) s) (inv : Inv (Recorded env) (fun _ _ => True) s)
    (served : Served env m greedy record s) (flagged : flags ⊆ s.cancelled) (stepped : s.workerStep env flags = some s') :
    Served env m greedy record s' := by
  have supplied := workerStep_supplied served.supplied stepped
  have tracked : Worker.Tracked (fun _ _ => True) s.hand s.worker := counted.tracked
  have distinct : s.worker.reqs.Nodup := by
    rw [List.nodup_iff_count_le_one]
    intro r
    have once := tracked.once r
    simp only [Worker.live, List.count_append] at once
    omega
  have layers : env.model.nLayers = m.nLayers := by rw [serves.model, DecoderModel.loaded_nLayers]
  have evicted : (s.worker.evictFinished env).Serving env m greedy record s.cancelled ∧
      (s.worker.evictFinished env).Units env m ∧ (s.worker.evictFinished env).Pooled env m ∧
      (s.worker.evictFinished env).Clean := by
    obtain ⟨rows, aligned, -⟩ := tracked.rows
    obtain ⟨-, -, -, -, -, pending, errors⟩ := Worker.evictFinished_spec env aligned (aligned.reqs ▸ distinct)
    refine ⟨Worker.evictFinished_serving served.serving distinct, ?_, ?_, fun e member => served.clean e (errors ▸ member)⟩
    · rw [Worker.Units, pending]
      exact served.units
    · exact Worker.evictFinished_pooled keyed layers served.pooled served.supplied.worker served.serving (served.recalls inv)
  unfold workerStep at stepped
  cases location : s.location with
  | top =>
    rw [location] at stepped
    dsimp only at stepped
    split at stepped
    · obtain ⟨⟨r, sched⟩, next, stepped⟩ := Option.bind_eq_some_iff.mp stepped
      cases r with
      | none =>
        obtain rfl := Option.some.inj stepped
        exact ⟨supplied, served.serving, served.units, served.pooled, served.clean, fun there => by cases there⟩
      | some r =>
        obtain rfl := Option.some.inj stepped
        exact ⟨supplied, served.serving, served.units, served.pooled, served.clean, fun there => by cases there⟩
    split at stepped
    · obtain rfl := Option.some.inj stepped
      exact ⟨supplied, served.serving, served.units, served.pooled, served.clean, fun there => by cases there⟩
    · obtain rfl := Option.some.inj stepped
      exact ⟨supplied, served.serving, served.units, served.pooled, served.clean, fun there => by cases there⟩
  | tookFirst r =>
    rw [location] at stepped
    obtain rfl := Option.some.inj stepped
    exact ⟨supplied, served.serving, served.units, served.pooled, served.clean, fun there => by cases there⟩
  | admitting incoming =>
    rw [location] at stepped
    obtain ⟨w', ran, stepped⟩ := Option.bind_eq_some_iff.mp stepped
    obtain rfl := Option.some.inj stepped
    rw [hand, location] at tracked
    obtain ⟨pooled, clean⟩ := Worker.admitIncoming_pooled keyed serves.text served.pooled served.clean
      served.supplied.worker (toOption_some ran)
    have holds := Worker.trueMatches_of_pooled keyed serves.text served.pooled served.clean served.supplied.worker
      flags incoming
    obtain ⟨serving, units⟩ := Worker.admitIncoming_serving serves flagged served.serving served.units tracked
      served.supplied.worker holds (toOption_some ran)
    exact ⟨supplied, serving, units, pooled, clean, fun there => by cases there⟩
  | advancing =>
    rw [location] at stepped
    obtain ⟨w', ran, stepped⟩ := Option.bind_eq_some_iff.mp stepped
    obtain rfl := Option.some.inj stepped
    rw [hand, location] at tracked
    have stays := Worker.stays_advanceChunkedPrefill (toOption_some ran)
    obtain ⟨serving, units⟩ := Worker.advanceChunkedPrefill_serving serves flagged served.serving served.units tracked
      served.supplied.worker (toOption_some ran)
    exact ⟨supplied, serving, units, served.pooled.congr stays.pool, fun e member => served.clean e (stays.errors ▸ member),
      fun there => by cases there⟩
  | evicting =>
    rw [location] at stepped
    obtain rfl := Option.some.inj stepped
    obtain ⟨serving, units, pooled, clean⟩ := evicted
    refine ⟨supplied, serving, units, pooled, clean, fun there none => ?_⟩
    dsimp only at there none
    rw [none] at there
    cases there
  | decoding =>
    rw [location] at stepped
    obtain ⟨w', ran, stepped⟩ := Option.bind_eq_some_iff.mp stepped
    obtain rfl := Option.some.inj stepped
    obtain ⟨rows, aligned, -⟩ := tracked.rows
    have ok := toOption_some ran
    obtain ⟨-, -, -, -, -, -, -, -, -, pending, pool, errors⟩ := Worker.decodeStep_spec aligned (aligned.reqs ▸ distinct) ok
    refine ⟨supplied, Worker.decodeStep_serving serves flagged served.serving distinct (served.batch location) ok, ?_,
      served.pooled.congr pool, fun e member => served.clean e (errors ▸ member), fun there => by cases there⟩
    rw [Worker.Units, pending]
    exact served.units
  | evictingDecoded =>
    rw [location] at stepped
    obtain rfl := Option.some.inj stepped
    obtain ⟨serving, units, pooled, clean⟩ := evicted
    exact ⟨supplied, serving, units, pooled, clean, fun there => by cases there⟩
  | exited =>
    rw [location] at stepped
    cases stepped

theorem Served.step (serves : env.Serves m greedy record) (keyed : env.prefixCfg.enabled = true → env.Keyed)
    (counted : Inv (fun _ _ => True) (fun _ _ => True) s) (inv : Inv (Recorded env) (fun _ _ => True) s)
    (served : Served env m greedy record s) (stepped : s.step env a = some s') : Served env m greedy record s' := by
  cases a with
  | submit =>
    obtain rfl := Option.some.inj stepped
    exact ⟨⟨served.supplied.worker, fun r _ text => serves.prompts r text⟩, served.serving, served.units, served.pooled,
      served.clean, served.batch⟩
  | cancel r =>
    obtain rfl := Option.some.inj stepped
    exact ⟨⟨served.supplied.worker, served.supplied.worded⟩, served.serving.mono (List.subset_cons_self r s.cancelled),
      served.units, served.pooled, served.clean, served.batch⟩
  | stop =>
    obtain rfl := Option.some.inj stepped
    exact ⟨⟨served.supplied.worker, served.supplied.worded⟩, served.serving, served.units, served.pooled, served.clean,
      served.batch⟩
  | worker flags =>
    unfold EngineState.step at stepped
    dsimp only at stepped
    split at stepped
    next flagged => exact workerStep_served serves keyed counted inv served flagged stepped
    · cases stepped

theorem served_of_reachable (serves : env.Serves m greedy record) (keyed : env.prefixCfg.enabled = true → env.Keyed)
    (reached : Reachable (step env) (Prudent env) (start env maxWaiting) s) : Served env m greedy record s :=
  reached.invariant_with (start_served maxWaiting) fun before served _ stepped =>
    served.step serves keyed (inv_of_reachable anyLaw (fun s a _ => any_careful s a) before)
      (inv_of_reachable (recorded_law env) prudent_careful before) stepped

omit [Slot V] in
/-- A request that is open and in no row has no token yet. -/
theorem untouched_of_open (counted : Inv (fun _ _ => True) (fun _ _ => True) s) {r : Nat} (absent : r ∉ s.worker.reqs)
    (opened : (s.worker.out r).closes = []) : (s.worker.out r).tokens = [] := by
  by_cases out : r ∈ s.sched.waiting ∨ r ∉ s.accepted
  · exact (counted.untaken r out).tokens
  · rw [not_or, not_not] at out
    by_cases alive : r ∈ Worker.live s.hand s.worker
    · exact (counted.tracked.fresh r ((List.mem_append.mp alive).resolve_right absent)).tokens
    · exact absurd opened (counted.settled r out.2 out.1 alive).1

/-- In every run, whatever the clients submit and cancel and whatever is batched, prefilled in chunks, matched with the
prefix cache or evicted beside it, a greedy request has emitted the first tokens and records of `greedyGenerate` on its own
prompt; closed, it has them all and the reason, unless it was cancelled. -/
theorem serves_single_stream (serves : env.Serves m greedy record) (keyed : env.prefixCfg.enabled = true → env.Keyed)
    (reached : Reachable (step env) (Prudent env) (start env maxWaiting) s) {r : Nat} (plain : (env.request r).Greedy) :
    ∃ result, greedyGenerate ⟨greedy, env.sample, env.key⟩ m (env.request r).promptIds (env.request r).maxTokens
        (env.request r).eosIds (env.request r).params.topLogprobs env.kvQuant = .ok result ∧
      (s.worker.out r).tokens <+: result.tokens ∧ (s.worker.out r).logprobs <+: result.tokenLogprobs ∧
      ((s.worker.out r).closes = [] ∨
        (s.worker.out r).closes = [if result.hitEos then "stop" else "length"] ∧ (s.worker.out r).tokens = result.tokens ∧
          (s.worker.out r).logprobs = result.tokenLogprobs ∨
        (s.worker.out r).closes = ["cancel"] ∧ r ∈ s.cancelled) := by
  have served := served_of_reachable serves keyed reached
  have counted : Inv (fun _ _ => True) (fun _ _ => True) s := inv_of_reachable anyLaw (fun s a _ => any_careful s a) reached
  obtain ⟨result, ok, answer, records, -⟩ := greedyGenerate_spec (m := m) serves.samples (serves.prompts r plain.multimodal)
    (env.request r).maxTokens (env.request r).eosIds (env.request r).params.topLogprobs env.kvQuant
  have answer : greedyAnswer env m greedy r = (result.tokens, result.hitEos) := answer.symm
  have written := (served.serving.steady r plain).logprobs
  have part : (s.worker.out r).tokens <+: result.tokens →
      (s.worker.out r).tokens <+: result.tokens ∧ (s.worker.out r).logprobs <+: result.tokenLogprobs := by
    intro part
    rw [written, records]
    exact ⟨part, wantedRecords_prefix part⟩
  have ends : Ended env m greedy s.cancelled r (s.worker.out r) → (s.worker.out r).tokens <+: result.tokens := by
    intro ended
    rcases ended with ⟨all, -⟩ | ⟨all, -⟩ | ⟨part, -, -⟩
    · rw [(Prod.mk.inj (all.symm.trans answer)).1]
    · rw [(Prod.mk.inj (all.symm.trans answer)).1]
    · rwa [answer] at part
  refine ⟨result, ok, ?_⟩
  rw [← and_assoc]
  by_cases member : r ∈ s.worker.reqs
  · obtain ⟨rows, contexts, aligned, -, fits⟩ := served.serving.rows
    rw [aligned.reqs] at member
    obtain ⟨row, among, rfl⟩ := List.mem_map.mp member
    obtain ⟨i, inside, rfl⟩ := List.mem_iff_getElem.mp among
    have fit := fits.get inside (fits.length_eq ▸ inside)
    simp only [List.get_eq_getElem] at fit
    have live := fit.live plain
    refine ⟨part ?_, .inl live.closes⟩
    rcases live.state with ⟨-, -, underway, -⟩ | ⟨-, ended⟩
    · have := Generation.Underway.isPrefix underway
      rwa [show Generation.generate _ _ _ _ = _ from answer] at this
    · exact ends ended
  · by_cases opened : (s.worker.out r).closes = []
    · refine ⟨part ?_, .inl opened⟩
      rw [untouched_of_open counted member opened]
      exact List.nil_prefix
    · obtain ⟨ended, closes⟩ := served.serving.settled r plain member opened
      refine ⟨part (ends ended), .inr ?_⟩
      rcases ended with ⟨all, reason⟩ | ⟨all, reason⟩ | ⟨-, reason, flag⟩
      · obtain ⟨tokens, stopped⟩ := Prod.mk.inj (all.symm.trans answer)
        exact .inl ⟨by rw [closes, reason, ← stopped]; rfl, tokens, by rw [written, records, tokens]⟩
      · obtain ⟨tokens, stopped⟩ := Prod.mk.inj (all.symm.trans answer)
        exact .inl ⟨by rw [closes, reason, ← stopped]; rfl, tokens, by rw [written, records, tokens]⟩
      · exact .inr ⟨by rw [closes, reason], flag⟩

/-! ### The same prompt again over a small model -/

/-- Every request asks for two tokens behind `[2, 3]`, with a prefix cache of one-token blocks. -/
def samePrompt : WorkerEnv Int Int Unit Unit Unit :=
  { twoRequests fun _ => 2 with
    request := fun _ => { promptIds := [2, 3], params := { temperature := 0 }, maxTokens := 2 }
    prefixCfg := { enabled := true, blockSize := 1 }
    prefillChunk := 0
    nbytes := fun a => a.cap
    sample := fun l _ _ _ => .ok (l % 10, ⟨l % 10, 0, []⟩) }

theorem samePrompt_keyed : samePrompt.Keyed where
  blockSize := by decide
  keys := by
    have chains : samePrompt.chains = {[], [2], [2, 3]} := by
      ext tokens
      constructor
      · rintro ⟨_, n, inside, rfl⟩
        have below : n ≤ 2 := by simpa [samePrompt] using inside
        interval_cases n
        · exact .inl rfl
        · exact .inr (.inl rfl)
        · exact .inr (.inr rfl)
      · rintro (rfl | rfl | rfl)
        · exact ⟨0, 0, by decide, rfl⟩
        · exact ⟨0, 1, by decide, rfl⟩
        · exact ⟨0, 2, by decide, rfl⟩
    rw [chains]
    have first : prefixKey 0 1 [] ≠ prefixKey 0 1 [2] := by decide
    have second : prefixKey 0 1 [] ≠ prefixKey 0 1 [2, 3] := by decide
    have third : prefixKey 0 1 [2] ≠ prefixKey 0 1 [2, 3] := by decide
    rintro a (rfl | rfl | rfl) b (rfl | rfl | rfl) key
    · rfl
    · exact absurd key first
    · exact absurd key second
    · exact absurd key first.symm
    · rfl
    · exact absurd key third
    · exact absurd key second.symm
    · exact absurd key third.symm
    · rfl
  honest := by nofun

theorem samePrompt_serves : samePrompt.Serves tinyModel (· % 10) fun l _ => ⟨l % 10, 0, []⟩ where
  model := rfl
  step := by decide
  text := rfl
  samples := fun _ _ _ _ _ => rfl
  prompts := fun _ _ => List.cons_ne_nil _ _

/-- One request from admission to its end, and then another. -/
def oneByOne : List EngineAction :=
  [.submit, .worker [], .worker [], .worker [], .worker [], .worker [], .worker [], .worker [],
    .submit, .worker [], .worker [], .worker [], .worker [], .worker [], .worker [], .worker []]

/-- The second request is admitted behind the first one's blocks, and gets what it would have got alone. -/
theorem serves_single_stream_again : ∃ s, Reachable (step samePrompt) (Prudent samePrompt) (start samePrompt 0) s ∧
    (s.worker.prefixPool.map fun pool => pool.pool.map.length) = some 2 ∧ (s.worker.out 1).closes = ["length"] ∧
    ∃ result, greedyGenerate ⟨(· % 10), samePrompt.sample, samePrompt.key⟩ tinyModel [2, 3] 2 [] = .ok result ∧
      (s.worker.out 1).tokens = result.tokens := by
  have run : (oneByOne.foldlM (fun s a => if Orderly s a then step samePrompt s a else none) (start samePrompt 0)).map
      (fun s => decide ((s.worker.prefixPool.map fun pool => pool.pool.map.length) = some 2 ∧
        (s.worker.out 1).closes = ["length"])) = some true := by
    decide +kernel
  obtain ⟨s, ran, columns⟩ := Option.map_eq_some_iff.mp run
  obtain ⟨pooled, closes⟩ := of_decide_eq_true columns
  have reached : Reachable (step samePrompt) (Prudent samePrompt) (start samePrompt 0) s :=
    (Reachable.of_allowed ran).mono fun _ _ orderly _ => orderly
  have plain : (samePrompt.request 1).Greedy := ⟨rfl, rfl, by decide, rfl, rfl, by decide⟩
  obtain ⟨result, ok, -, -, ends⟩ := serves_single_stream samePrompt_serves (fun _ => samePrompt_keyed) reached plain
  refine ⟨s, reached, pooled, closes, result, ok, ?_⟩
  rcases ends with opened | ⟨-, tokens, -⟩ | ⟨cancelled, -⟩
  · rw [closes] at opened
    cases opened
  · exact tokens
  · rw [closes] at cancelled
    simp at cancelled

end EngineState

end Mlxforge
