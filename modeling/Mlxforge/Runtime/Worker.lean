import Mlxforge.Cache.PrefixCache
import Mlxforge.Lib.Compaction
import Mlxforge.Runtime.Batching
import Mlxforge.Scheduler.Request

/-!
The worker: admission, chunked prefill, the batched decode step and eviction over one shared cache. A computation that
throws ends the worker thread, except inside `admitMultimodal`, which catches and fails the request.
-/

namespace Mlxforge

open Compaction (copyTo moveTo)

variable {V L K G I : Type}

/-- What the worker's code is given: its requests and settings, the loaded model, and the calls into the random,
sampling, grammar, embedding and vision code. -/
structure WorkerEnv (V L K G I : Type) where
  request : Nat → Request
  model : LoadedModel V L
  kStep : Nat := 256
  kvQuant : KVQuantConfig := {}
  prefixCfg : PrefixCacheConfig := {}
  prefillChunk : Nat := 256
  miss : Option (MissFn V) := none
  nbytes : KvArray V → Nat
  key : UInt64 → K
  split : K → K × K
  /-- `Sampler::sample` of one row; an empty history is the overload without one. -/
  sample : L → SamplingParams → K → List Int → Except Fault (Int × TokenLogprob Rat)
  /-- Whether there is a tokenizer. -/
  tok : Bool := true
  fromSchemaString : String → G
  /-- The logits plus `grammar_mask`. -/
  grammarMask : (eosIds : List Int) → G → L → L
  grammarAdvance : Int → G → G
  embedPooled : List Int → (pooling : Int) → (normalize : Bool) → Except Fault (List Rat)
  visionModel : Bool := false
  decodeImage : List UInt8 → Except Fault I
  renderMultimodalPrompt : String → List I → Except Fault (List Int)
  /-- `prepare_multimodal_prefill` and `prefill_multimodal_batched`: a cache of one row and its last logits. -/
  prefillMultimodal : List Int → List I → Except Fault (BatchKVCache V × L)
  prefillMultimodal_batch : ∀ {ids images cache logits}, prefillMultimodal ids images = .ok (cache, logits) → cache.batch = 1
  /-- What a merge that threw leaves of the cache. -/
  torn : BatchKVCache V → BatchKVCache V → BatchKVCache V

/-- Where a caught exception was thrown: before the shared batch was touched, by the merge, or by the registration. -/
inductive AdmitStage where
  | prepare | merge | register
  deriving DecidableEq, Repr

/-- The worker's state. A request is its number; `owners` records whose prefill each cache row came from, and `errors`
the multimodal admissions that failed. -/
structure Worker (V K G : Type) where
  reqs : List Nat := []
  produced : List Nat := []
  feed : List Int := []
  finished : List Bool := []
  history : List (List Int) := []
  rngKeys : List K := []
  cache : Option (BatchKVCache V) := none
  owners : List Nat := []
  pending : List (PendingPrefill Nat V) := []
  prefixPool : Option (PrefixCache V) := none
  out : Nat → Output G
  errors : List (Nat × AdmitStage) := []

/-- The row-aligned entries of one row. -/
structure Row (K : Type) where
  req : Nat
  produced : Nat
  feed : Int
  finished : Bool
  history : List Int
  key : K

namespace Worker

variable (w : Worker V K G)

def row? (b : Nat) : Option (Row K) := do
  let req ← w.reqs[b]?
  let produced ← w.produced[b]?
  let feed ← w.feed[b]?
  let finished ← w.finished[b]?
  let history ← w.history[b]?
  let key ← w.rngKeys[b]?
  return { req, produced, feed, finished, history, key }

/-- Write a row and its request's output. -/
def putRow (b : Nat) (row : Row K) (o : Output G) : Worker V K G :=
  { w with
    reqs := w.reqs.set b row.req
    produced := w.produced.set b row.produced
    feed := w.feed.set b row.feed
    finished := w.finished.set b row.finished
    history := w.history.set b row.history
    rngKeys := w.rngKeys.set b row.key
    out := Function.update w.out row.req o }

def update (r : Nat) (f : Output G → Output G) : Worker V K G := { w with out := Function.update w.out r (f (w.out r)) }

/-- A caught exception: the request is failed and closed. -/
def fail (r : Nat) (stage : AdmitStage) : Worker V K G :=
  { w.update r fun o => { o with finishReason := "error" }.close with errors := w.errors ++ [(r, stage)] }

/-- A body of a loop over the rows. -/
abbrev RowStep (K G : Type) := Row K → Output G → Row K × Output G

/-- The loop over the rows from `b` on, one body a row. -/
def eachRow : List (RowStep K G) → Nat → Worker V K G → Worker V K G
  | [], _, w => w
  | f :: fs, b, w =>
    let w := match w.row? b with
      | some row =>
        let (row, o) := f row (w.out row.req)
        w.putRow b row o
      | none => w
    eachRow fs (b + 1) w

/-! ### Registration and sampling -/

section
variable (env : WorkerEnv V L K G I)

def advanceGrammar (o : Output G) (id : Int) : Output G := { o with grammar := o.grammar.map (env.grammarAdvance id) }

def pushRow (r : Nat) : Worker V K G :=
  let req := env.request r
  let w := { w with
    reqs := w.reqs ++ [r]
    produced := w.produced ++ [0]
    feed := w.feed ++ [0]  -- set to the first token below
    finished := w.finished ++ [false]
    history := w.history ++ [(w.out r).promptIds]
    rngKeys := w.rngKeys ++ [env.key req.params.seed] }
  if env.tok && req.jsonSchema != "" then
    w.update r fun o => { o with grammar := some (env.fromSchemaString req.jsonSchema) }
  else w

def pushRows (ids : List Nat) : Worker V K G := ids.foldl (fun w r => w.pushRow env r) w

/-- One row of `sample_rows`. -/
def sampleRow (req : Request) (o : Output G) (row : Row K) (logits : L) : Except Fault Sampled := do
  let masked := match o.grammar with
    | some g => if env.tok then env.grammarMask req.eosIds g logits else logits
    | none => logits
  let seen := if !req.params.hasPenalties || row.history.isEmpty then [] else row.history
  let (id, lp) ← env.sample masked req.params (env.split row.key).2 seen
  return ⟨id, if 0 ≤ req.params.topLogprobs then some lp else none⟩

/-- The samples of `count` rows from `offset` on; logits row `i` belongs to row `offset + i`. -/
def sampleRows (logits : List L) (offset count : Nat) : Except Fault (List Sampled) :=
  (List.range count).mapM fun i =>
    match w.row? (offset + i), logits[i]? with
    | some row, some l => sampleRow env (env.request row.req) (w.out row.req) row l
    | _, _ => .error .outOfBounds

/-- `rng_keys_[r] = ks.first` for the sampled rows. -/
def advanceKeys (offset count : Nat) : Worker V K G :=
  { w with rngKeys := w.rngKeys.mapIdx fun b key =>
      if offset ≤ b ∧ b < offset + count then (env.split key).1 else key }

/-- A fresh row's first token. -/
def firstToken (flags : List Nat) (s : Sampled) : RowStep K G := fun row o =>
  let o := advanceGrammar env o s.id
  let row := { row with feed := s.id, history := row.history ++ [s.id] }
  if flags.contains row.req then ({ row with finished := true }, { o with finishReason := "cancel" })
  else
    let (o, produced, done) := Output.consume (env.request row.req) o row.produced s
    ({ row with produced, finished := if done then true else row.finished }, o)

def registerRows (flags : List Nat) (ids : List Nat) (lastLogits : List L) : Except Fault (Worker V K G) := do
  let base := w.reqs.length
  let w := w.pushRows env ids
  let samples ← w.sampleRows env lastLogits base ids.length
  return eachRow (samples.map (firstToken env flags)) base (w.advanceKeys env base ids.length)

/-- The fresh cache of the requests `ids` joins the batch's. -/
def adopt [Slot V] (fresh : BatchKVCache V) (ids : List Nat) : Except Fault (Worker V K G) :=
  match w.cache with
  | none => .ok { w with cache := some fresh, owners := ids }
  | some cache => do
    let cache ← cache.merge fresh
    return { w with cache := some cache, owners := w.owners ++ ids }

/-! ### Admission -/

def handleEmbedding (r : Nat) : Worker V K G :=
  let req := env.request r
  w.update r fun o =>
    (match env.embedPooled o.promptIds req.pooling req.embeddingNormalize with
      | .ok v => { o with embeddingResult := v, finishReason := "embed" }
      | .error _ => { o with finishReason := "error" }).close

def multimodalPrompt (req : Request) (promptIds : List Int) : Except Fault (List Int × List I) := do
  if !env.visionModel then throw .multimodal
  let images ← req.mmImages.mapM env.decodeImage
  if promptIds ≠ [] then return (promptIds, images)
  if !env.tok then throw .multimodal
  return (← env.renderMultimodalPrompt req.mmText images, images)

def admitMultimodal [Slot V] (flags : List Nat) (r : Nat) : Worker V K G :=
  match multimodalPrompt env (env.request r) (w.out r).promptIds with
  | .error _ => w.fail r .prepare
  | .ok (promptIds, images) =>
    let w := w.update r fun o => { o with promptIds }
    match env.prefillMultimodal promptIds images with
    | .error _ => w.fail r .prepare
    | .ok (fresh, lastLogits) =>
      match w.adopt fresh [r] with
      | .error _ => { w with cache := w.cache.map (env.torn · fresh) }.fail r .merge
      | .ok w =>
        match w.registerRows env flags [r] [lastLogits] with
        | .error _ => ((w.pushRows env [r]).advanceKeys env w.reqs.length 1).fail r .register
        | .ok w => w

structure PrefixSplit (V : Type) where
  cold : List Nat := []
  warm : List (Nat × Match V) := []

def splitPrefix : Worker V K G → List Nat → PrefixSplit V × Worker V K G
  | w, [] => ({}, w)
  | w, r :: rest =>
    match w.prefixPool with
    | none =>
      let (split, w) := splitPrefix w rest
      ({ split with cold := r :: split.cold }, w)
    | some pool =>
      let (m, pool) := pool.matchIds env.miss (w.out r).promptIds
      let (split, w) := splitPrefix { w with prefixPool := some pool } rest
      if 0 < m.tokens then ({ split with warm := (r, m) :: split.warm }, w)
      else ({ split with cold := r :: split.cold }, w)

variable [Slot V]

def admitWarm (flags : List Nat) (r : Nat) (m : Match V) : Except Fault (Worker V K G) := do
  let pr ← prefillWithPrefix env.model env.kStep (w.out r).promptIds m.blocks m.tokens prefillStepSize env.kvQuant
  let w ← w.adopt pr.cache [r]
  w.registerRows env flags [r] pr.lastLogits

def admitCold (flags : List Nat) (cold : List Nat) : Except Fault (Worker V K G) := do
  let prompts := cold.map fun r => (w.out r).promptIds
  let pr ← prefill env.model env.kStep prompts prefillStepSize 0 env.kvQuant
  let w ← w.adopt pr.cache cold
  w.registerRows env flags cold pr.lastLogits

/-- `admit`, the monolithic path: every prefill runs to its end here. -/
def admitGroup (flags : List Nat) (incoming : List Nat) : Except Fault (Worker V K G) := do
  let (split, w) := splitPrefix env w incoming
  let w ← if split.cold = [] then pure w else w.admitCold env flags split.cold
  split.warm.foldlM (fun w p => w.admitWarm env flags p.1 p.2) w

def enqueueAdmissions (incoming : List Nat) : Except Fault (Worker V K G) := do
  let (split, w) := splitPrefix env w incoming
  let warm ← split.warm.mapM fun p =>
    PendingPrefill.warm env.model env.kStep p.1 (w.out p.1).promptIds p.2.blocks p.2.tokens env.kvQuant
  if split.cold = [] then return { w with pending := w.pending ++ warm }
  let prompts := split.cold.map fun r => (w.out r).promptIds
  let cold := PendingPrefill.cold env.model env.kStep split.cold prompts env.kvQuant
  return { w with pending := w.pending ++ warm ++ [cold] }

/-- Embedding and multimodal requests are dealt with one by one; the others are left for a group admission. -/
def dispatch (flags : List Nat) : Worker V K G → List Nat → Worker V K G × List Nat
  | w, [] => (w, [])
  | w, r :: rest =>
    if (env.request r).embedding then dispatch flags (w.handleEmbedding env r) rest
    else if (env.request r).isMultimodal then dispatch flags (w.admitMultimodal env flags r) rest
    else
      let (w, gen) := dispatch flags w rest
      (w, r :: gen)

def admitIncoming (flags : List Nat) (incoming : List Nat) : Except Fault (Worker V K G) :=
  let (w, gen) := dispatch env flags w incoming
  if gen = [] then .ok w
  else if 0 < env.prefillChunk then w.enqueueAdmissions env gen
  else w.admitGroup env flags gen

/-- One chunk of the unit in front; after its last one the unit's rows join the batch. -/
def advanceChunkedPrefill (flags : List Nat) : Except Fault (Worker V K G) :=
  match w.pending with
  | [] => .ok w
  | p :: rest => do
    let (p, last) ← p.advance env.model env.prefillChunk
    match last with
    | none => return { w with pending := p :: rest }
    | some last =>
      let w ← { w with pending := p :: rest }.adopt p.cache p.reqs
      let w ← w.registerRows env flags p.reqs last
      return { w with pending := rest }

/-! ### Decoding -/

/-- A row's next token. -/
def nextToken (flags : List Nat) (s : Sampled) : RowStep K G := fun row o =>
  if row.finished then (row, o)
  else if flags.contains row.req then ({ row with finished := true }, { o with finishReason := "cancel" })
  else
    let o := advanceGrammar env o s.id
    let row := { row with feed := s.id, history := row.history ++ [s.id] }
    let (o, produced, done) := Output.consume (env.request row.req) o row.produced s
    ({ row with produced, finished := if done then true else row.finished }, o)

/-- `reshape(logits, {bucket, vocab})`. -/
def logitRows (logits : KvArray L) : List L := (List.range logits.batch).map fun b => logits.get b 0

/-- The cache with its dummy rows. -/
def paddedCache (extra : Nat) : Except Fault (BatchKVCache V) :=
  match w.cache with
  | none => .error .outOfBounds
  | some cache => if 0 < extra then cache.padDummies extra else .ok cache

def decodeStep (flags : List Nat) : Except Fault (Worker V K G) := do
  let B := w.reqs.length
  let bucket := nextBucket B
  let extra := bucket - B
  let cache ← w.paddedCache extra
  let fed := w.feed ++ List.replicate extra 0
  let (logits, cache) ← env.model.forward ⟨bucket, 1, fun b _ => fed.getD b 0⟩ cache
  let samples ← w.sampleRows env (logitRows logits) 0 B
  let w := eachRow (samples.map (nextToken env flags)) 0 (w.advanceKeys env 0 B)
  return { w with cache := some (if 0 < extra then cache.filter (List.range B) else cache) }

/-! ### Eviction -/

/-- A finished row's prompt span goes to the prefix pool. -/
def harvestRow (cache : BatchKVCache V) (pool : PrefixCache V) (b : Nat) : PrefixCache V :=
  match w.row? b with
  | none => pool
  | some row =>
    if !row.finished || (env.request row.req).isMultimodal then pool
    else
      let lp := cache.padding b
      let len := min (cache.idx - lp) (w.out row.req).promptIds.length
      if len < env.prefixCfg.blockSize then pool
      else pool.harvest env.nbytes row.history len.toNat env.model.nLayers fun layer =>
        cache.fetchRowComponents layer b lp len

def harvestFinished : Worker V K G :=
  match w.prefixPool, w.cache with
  | some pool, some cache =>
    if w.finished.any id then
      { w with prefixPool := some ((List.range w.finished.length).foldl (w.harvestRow env cache) pool) }
    else w
  | _, _ => w

def closeFinished : RowStep K G := fun row o => (row, if row.finished then o.close else o)

/-- The compaction of the row-aligned vectors down to the rows `keep`, in place. -/
def compact (keep : List Nat) : Worker V K G :=
  { w with
    reqs := Compaction.compact copyTo keep w.reqs
    produced := Compaction.compact copyTo keep w.produced
    feed := Compaction.compact copyTo keep w.feed
    finished := Compaction.compact copyTo keep w.finished
    history := Compaction.compact moveTo keep w.history
    rngKeys := Compaction.compact copyTo keep w.rngKeys }

/-- Drop all rows but `keep`, in the cache and in the vectors. -/
def keepRows (keep : List Nat) : Worker V K G :=
  if keep.length = w.reqs.length then w  -- nothing evicted
  else
    let w := if keep = [] then { w with cache := none, owners := [] }
      else { w with cache := w.cache.map (·.filter keep), owners := gather 0 w.owners keep }
    w.compact keep

def evictFinished : Worker V K G :=
  let w := w.harvestFinished env
  let keep := (List.range w.finished.length).filter fun b => !w.finished.getD b false
  (eachRow (List.replicate w.finished.length closeFinished) 0 w).keepRows keep

end

end Worker

end Mlxforge
