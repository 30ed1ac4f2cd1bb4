import Mlxforge.Cache.MergeAgreement
import Mlxforge.Runtime.Conservation

/-!
`admit_multimodal` as it writes the worker: its `try` block runs in place, and the handler finds what the block had
written when it threw. The batch is as it was if that was before the cache was written, and only then.
-/

namespace Mlxforge

open Std.Do Attempt

set_option mvcgen.warning false

variable {V L K G I : Type}

/-- A place in `admit_multimodal` where a call can throw. -/
inductive AdmitPoint where
  | visionModel
  | vit
  | decodeImage (image : Nat)
  | tokenizer
  | render
  /-- `prepare_multimodal_prefill` and `prefill_multimodal_batched`. -/
  | prefill
  /-- `std::make_unique<BatchKVCache>`. -/
  | allocate
  | merge (p : MergePoint)
  /-- `mx::random::key`. -/
  | key
  | compileGrammar
  | grammarMask
  | split
  | sample
  /-- The `async_eval` of the samples and the reads behind it. -/
  | eval
  deriving DecidableEq, Repr

namespace AdmitPoint

def stage : AdmitPoint → AdmitStage
  | visionModel | vit | decodeImage _ | tokenizer | render | prefill => .prepare
  | allocate | merge _ => .merge
  | key | compileGrammar | grammarMask | split | sample | eval => .register

/-- The shared batch has not been written when the call at this point throws. -/
def Early : AdmitPoint → Prop
  | visionModel | vit | decodeImage _ | tokenizer | render | prefill | allocate => True
  | merge p => p.Early
  | key | compileGrammar | grammarMask | split | sample | eval => False

end AdmitPoint

namespace Worker

section
variable (fails : AdmitPoint → Bool) (env : WorkerEnv V L K G I)

def promptInPlace (r : Nat) : EStateM AdmitPoint (Worker V K G) (List Int × List I) := do
  if env.visionModel = false then throw .visionModel
  else
    reach fails .vit
    let mut images := []
    for p in (env.request r).mmImages.zipIdx do
      let image ← call fails (.decodeImage p.2) (env.decodeImage p.1)
      images := images ++ [image]
    let w ← get
    if (w.out r).promptIds ≠ [] then return ((w.out r).promptIds, images)
    else if env.tok = false then throw .tokenizer
    else
      let promptIds ← call fails .render (env.renderMultimodalPrompt (env.request r).mmText images)
      return (promptIds, images)

def adoptInPlace [Slot V] (fresh : BatchKVCache V) (ids : List Nat) : EStateM AdmitPoint (Worker V K G) Unit := do
  let w ← get
  match w.cache with
  | none =>
    reach fails .allocate
    set { w with cache := some fresh, owners := ids }
  | some cache =>
    match BatchKVCache.mergeInPlace (fun p => fails (.merge p)) fresh cache with
    | .ok _ merged => set { w with cache := some merged, owners := w.owners ++ ids }
    | .error p torn =>
      set { w with cache := some torn }
      throw (.merge p)

def compileGrammar (r : Nat) : EStateM AdmitPoint (Worker V K G) Unit :=
  if env.tok && (env.request r).jsonSchema != "" then do
    reach fails .compileGrammar
    modify fun w => w.update r fun o => { o with grammar := some (env.fromSchemaString (env.request r).jsonSchema) }
  else pure ()

def maskInPlace (o : Output G) : EStateM AdmitPoint (Worker V K G) Unit :=
  if o.grammar.isSome && env.tok then reach fails .grammarMask else pure ()

/-- `sample_rows` and `finalize_sample` of row `b`. -/
def sampleInPlace (b : Nat) (logits : L) : EStateM AdmitPoint (Worker V K G) Sampled := do
  let w ← get
  match w.row? b with
  | none => throw .sample
  | some row =>
    maskInPlace fails env (w.out row.req)
    reach fails .split
    modify (·.advanceKeys env b 1)
    let s ← call fails .sample (sampleRow env (env.request row.req) (w.out row.req) row logits)
    reach fails .eval
    return s

/-- `register_rows` of one request. -/
def registerInPlace (flags : List Nat) (r : Nat) (logits : L) : EStateM AdmitPoint (Worker V K G) Unit := do
  let w ← get
  set { w with
    reqs := w.reqs ++ [r]
    produced := w.produced ++ [0]
    feed := w.feed ++ [0]
    finished := w.finished ++ [false]
    history := w.history ++ [(w.out r).promptIds] }
  reach fails .key
  modify fun w => { w with rngKeys := w.rngKeys ++ [env.key (env.request r).params.seed] }
  compileGrammar fails env r
  let s ← sampleInPlace fails env w.reqs.length logits
  modify (eachRow [firstToken env flags s] w.reqs.length)

/-- The `try` block. -/
def admitInPlace [Slot V] (flags : List Nat) (r : Nat) : EStateM AdmitPoint (Worker V K G) Unit := do
  let prompt ← promptInPlace fails env r
  modify fun w => w.update r fun o => { o with promptIds := prompt.1 }
  let pf ← call fails .prefill (env.prefillMultimodal prompt.1 prompt.2)
  adoptInPlace fails pf.1 [r]
  registerInPlace fails env flags r pf.2

/-- The block and its handler. -/
def tryAdmit [Slot V] (flags : List Nat) (r : Nat) (w : Worker V K G) : Worker V K G :=
  match admitInPlace fails env flags r w with
  | .ok _ w => w
  | .error p w => w.fail r p.stage

end

/-! ### What an exception leaves -/

/-- The cache and the row vectors are as they were. -/
structure SameBatch (w w' : Worker V K G) : Prop where
  cache : w'.cache = w.cache
  reqs : w'.reqs = w.reqs
  produced : w'.produced = w.produced
  feed : w'.feed = w.feed
  finished : w'.finished = w.finished
  history : w'.history = w.history
  rngKeys : w'.rngKeys = w.rngKeys

theorem SameBatch.refl (w : Worker V K G) : SameBatch w w := ⟨rfl, rfl, rfl, rfl, rfl, rfl, rfl⟩

/-- Request `r` was refused: the batch is as it was, and `r` is closed with an error and is no row of it. -/
structure Refused (r : Nat) (w w' : Worker V K G) : Prop where
  batch : SameBatch w w'
  closes : (w'.out r).closes = (w.out r).closes ++ ["error"]
  finishReason : (w'.out r).finishReason = "error"
  gone : r ∉ w'.reqs

section Throws

variable {fails : AdmitPoint → Bool} {env : WorkerEnv V L K G I} {w : Worker V K G} {r b : Nat}

theorem setPrompt_closes (ids : List Int) :
    ((w.update r fun o => { o with promptIds := ids }).out r).closes = (w.out r).closes := by
  simp [update]

theorem promptInPlace_spec (w : Worker V K G) :
    ⦃fun s => ⌜s = w⌝⦄ promptInPlace fails env r ⦃post⟨fun _ s => ⌜s = w⌝, fun p s => ⌜s = w ∧ p.Early⌝⟩⦄ := by
  unfold promptInPlace
  mvcgen invariants
  · post⟨fun _ s => ⌜s = w⌝, fun p s => ⌜s = w ∧ p.Early⌝⟩
  all_goals grind [AdmitPoint.Early]

/-- The cache is the merge of the worker's with `fresh`, broken off behind its first write. -/
def TornBy [Slot V] (fresh : BatchKVCache V) (w w' : Worker V K G) : Prop :=
  ∃ cache torn, w.cache = some cache ∧ w'.cache = some torn ∧ cache.Overwritten fresh torn

theorem adoptInPlace_spec [Slot V] (w : Worker V K G) (fresh : BatchKVCache V) (ids : List Nat) :
    ⦃fun s => ⌜s = w⌝⦄ adoptInPlace fails fresh ids
    ⦃post⟨fun _ s => ⌜s.reqs = w.reqs⌝,
      fun p s => ⌜(p.Early → SameBatch w s ∧ s.out = w.out) ∧ (¬ p.Early → TornBy fresh w s)⌝⟩⦄ := by
  unfold adoptInPlace
  mvcgen
  case vc1 =>
    rename_i start _ _ _ _
    rw [start]
  case vc2 =>
    rename_i start _ _ _
    subst start
    rintro rfl rfl -
    exact ⟨fun _ => ⟨.refl _, rfl⟩, fun late => absurd trivial late⟩
  case vc3 =>
    rename_i start _ _ _ _ _
    rw [start]
  case vc4 =>
    rename_i start cache live p torn thrown
    subst start
    obtain ⟨early, late⟩ := BatchKVCache.mergeInPlace_throws thrown
    constructor
    · intro h
      rw [early h]
      exact ⟨⟨live.symm, rfl, rfl, rfl, rfl, rfl, rfl⟩, rfl⟩
    · intro h
      exact ⟨cache, torn, live, rfl, late h⟩

theorem compileGrammar_spec (w : Worker V K G) :
    ⦃fun s => ⌜s = w⌝⦄ compileGrammar fails env r
    ⦃post⟨fun _ s => ⌜s.reqs = w.reqs⌝, fun p s => ⌜¬ p.Early ∧ s.reqs = w.reqs⌝⟩⦄ := by
  unfold compileGrammar
  mvcgen
  all_goals grind [AdmitPoint.Early, update]

theorem maskInPlace_spec (w : Worker V K G) (o : Output G) :
    ⦃fun s => ⌜s = w⌝⦄ maskInPlace fails env o ⦃post⟨fun _ s => ⌜s = w⌝, fun p s => ⌜¬ p.Early ∧ s = w⌝⟩⦄ := by
  unfold maskInPlace
  mvcgen
  all_goals grind [AdmitPoint.Early]

theorem sampleInPlace_spec (w : Worker V K G) (logits : L) :
    ⦃fun s => ⌜s = w⌝⦄ sampleInPlace fails env b logits
    ⦃post⟨fun _ s => ⌜s.reqs = w.reqs⌝, fun p s => ⌜¬ p.Early ∧ s.reqs = w.reqs⌝⟩⦄ := by
  unfold sampleInPlace
  mvcgen [maskInPlace_spec]
  all_goals grind [AdmitPoint.Early, advanceKeys]

/-- Once the registration has begun, the request is a row. -/
theorem registerInPlace_spec (w : Worker V K G) (flags : List Nat) (logits : L) :
    ⦃fun s => ⌜s = w⌝⦄ registerInPlace fails env flags r logits
    ⦃post⟨fun _ _ => ⌜True⌝, fun p s => ⌜¬ p.Early ∧ s.reqs = w.reqs ++ [r]⌝⟩⦄ := by
  unfold registerInPlace
  mvcgen [compileGrammar_spec, sampleInPlace_spec]
  all_goals grind [AdmitPoint.Early]

/-- What the `try` block leaves when it throws. -/
theorem admitInPlace_spec [Slot V] (w : Worker V K G) (flags : List Nat) :
    ⦃fun s => ⌜s = w⌝⦄ admitInPlace fails env flags r
    ⦃post⟨fun _ _ => ⌜True⌝, fun p s => ⌜(p.Early → SameBatch w s ∧ (s.out r).closes = (w.out r).closes) ∧
        (¬ p.Early → s.reqs = w.reqs ++ [r] ∨
          ∃ ids images pf, env.prefillMultimodal ids images = .ok pf ∧ TornBy pf.1 w s)⌝⟩⦄ := by
  unfold admitInPlace
  mvcgen [promptInPlace_spec, adoptInPlace_spec, registerInPlace_spec]
  case vc2 =>
    rename_i start prompt _ same _ pf _ drafted _ _ adopted p t
    subst start same
    intro late rows
    refine ⟨fun early => absurd early late, fun _ => .inl ?_⟩
    rw [rows, adopted, drafted.1]
    rfl
  case vc3 =>
    rename_i start prompt _ same _ pf _ drafted p t
    subst start same
    obtain ⟨rfl, prefilled⟩ := drafted
    intro early late
    constructor
    · intro h
      obtain ⟨batch, out⟩ := early h
      refine ⟨⟨batch.cache, batch.reqs, batch.produced, batch.feed, batch.finished, batch.history, batch.rngKeys⟩, ?_⟩
      rw [out]
      exact setPrompt_closes prompt.1
    · intro h
      exact .inr ⟨_, _, pf, prefilled, late h⟩
  case vc4 =>
    rename_i start prompt _ same _ p t
    subst start same
    rintro rfl rfl -
    exact ⟨fun _ => ⟨⟨rfl, rfl, rfl, rfl, rfl, rfl, rfl⟩, setPrompt_closes prompt.1⟩, fun late => absurd trivial late⟩
  case vc5 =>
    rename_i start p t
    subst start
    rintro rfl early
    exact ⟨fun _ => ⟨.refl _, rfl⟩, fun late => absurd early late⟩

/-- The admission of `r` is refused, whenever it throws, exactly if it threw before the shared batch was written. -/
theorem tryAdmit_refused [Slot V] (flags : List Nat) {p : AdmitPoint} {t : Worker V K G} (incoming : r ∉ w.reqs)
    (run : admitInPlace fails env flags r w = .error p t) :
    (p.Early → Refused r w (tryAdmit fails env flags r w)) ∧
      ((∀ cache ids images pf, w.cache = some cache → env.prefillMultimodal ids images = .ok pf → cache.Keyed pf.1) →
        Refused r w (tryAdmit fails env flags r w) → p.Early) := by
  obtain ⟨early, late⟩ := thrown (admitInPlace_spec w flags) rfl run
  rw [tryAdmit, run]
  constructor
  · intro h
    obtain ⟨batch, closes⟩ := early h
    refine ⟨⟨batch.cache, batch.reqs, batch.produced, batch.feed, batch.finished, batch.history, batch.rngKeys⟩, ?_, ?_, ?_⟩
    · simp [fail, update, Output.close, closes]
    · simp [fail, update, Output.close]
    · exact batch.reqs ▸ incoming
  · intro keyed refused
    by_contra h
    rcases late h with rows | ⟨ids, images, pf, prefilled, cache, torn, live, left, overwritten⟩
    · have same : t.reqs = w.reqs := refused.batch.reqs
      rw [rows] at same
      simp at same
    · have same : t.cache = w.cache := refused.batch.cache
      rw [left, live] at same
      exact overwritten.differs (keyed cache ids images pf live prefilled) (Option.some.inj same)

end Throws

/-! ### A multimodal request beside a text row -/

/-- One layer, one row, one written position. -/
def singleRow : BatchKVCache Int where
  batch := 1
  idx := 1
  layers := [{ keys := [⟨1, 1, fun _ _ => 1⟩], values := [⟨1, 1, fun _ _ => 1⟩] }]
  offset := [1]
  leftPadding := [0]

def imageRequests : WorkerEnv Int Int Unit Unit Unit :=
  { EngineState.twoRequests fun _ => 5 with
    request := fun r => { promptIds := [1], mmImages := if r = 1 then [[0]] else [] }
    visionModel := true
    prefillMultimodal := fun _ _ => .ok (singleRow, 1)
    prefillMultimodal_batch := by rintro _ _ _ _ ⟨⟩; rfl }

/-- Request 0 is being decoded. -/
def oneLive : Worker Int Unit Unit where
  reqs := [0]
  produced := [1]
  feed := [1]
  finished := [false]
  history := [[1, 1]]
  rngKeys := [()]
  cache := some singleRow
  owners := [0]
  out := fun _ => { promptIds := [1] }

theorem tryAdmit_refused_images :
    Refused 1 oneLive (tryAdmit (· == .prefill) imageRequests [] 1 oneLive) ∧
      ¬Refused 1 oneLive (tryAdmit (· == .merge .eval) imageRequests [] 1 oneLive) := by
  have prefill : (exception (admitInPlace (· == .prefill) imageRequests [] 1 oneLive)).map (fun x => decide (x.1 = .prefill)) =
      some true := by decide +kernel
  have eval : (exception (admitInPlace (· == .merge .eval) imageRequests [] 1 oneLive)).map
      (fun x => decide (x.1 = .merge .eval)) = some true := by decide +kernel
  obtain ⟨x, ran, early⟩ := Option.map_eq_some_iff.mp prefill
  obtain ⟨y, ran', late⟩ := Option.map_eq_some_iff.mp eval
  constructor
  · refine (tryAdmit_refused [] (by decide) (error_of_exception ran)).1 ?_
    rw [of_decide_eq_true early]
    trivial
  · intro refused
    have h := (tryAdmit_refused [] (by decide) (error_of_exception ran')).2 ?_ refused
    · rw [of_decide_eq_true late] at h
      exact h
    · rintro cache ids images pf live prefilled
      obtain rfl := Option.some.inj live
      obtain rfl := Except.ok.inj prefilled
      exact ⟨by decide, by decide⟩

/-- The sampling of the first token throws: the request is closed with an error, and is a row of the batch. -/
theorem refused_live : ∃ t, admitInPlace (· == .sample) imageRequests [] 1 oneLive = .error .sample t ∧
    (t.fail 1 .register).reqs = [0, 1] ∧ ((t.fail 1 .register).out 1).closes = ["error"] ∧
    ¬Refused 1 oneLive (tryAdmit (· == .sample) imageRequests [] 1 oneLive) := by
  have run : (exception (admitInPlace (· == .sample) imageRequests [] 1 oneLive)).map (fun x => decide (x.1 = .sample ∧
      (x.2.fail 1 .register).reqs = [0, 1] ∧ ((x.2.fail 1 .register).out 1).closes = ["error"])) = some true := by
    decide +kernel
  obtain ⟨x, ran, held⟩ := Option.map_eq_some_iff.mp run
  obtain ⟨point, reqs, closes⟩ := of_decide_eq_true held
  have threw := error_of_exception ran
  rw [point] at threw
  refine ⟨x.2, threw, reqs, closes, fun refused => refused.gone ?_⟩
  rw [tryAdmit, threw]
  change 1 ∈ (x.2.fail 1 .register).reqs
  rw [reqs]
  decide

/-! ### Agreement with `admitMultimodal` -/

/-- The cache as the merge in place leaves it, whether it returns or throws. -/
def leftover [Slot V] (cache fresh : BatchKVCache V) : BatchKVCache V :=
  match BatchKVCache.mergeInPlace quiet fresh cache with
  | .ok _ c => c
  | .error _ c => c

section Agreement

variable {env : WorkerEnv V L K G I} {w : Worker V K G} {r b : Nat} {rows : List (Row K)}

theorem promptInPlace_agrees (w : Worker V K G) :
    ⦃fun s => ⌜s = w⌝⦄ promptInPlace quiet env r
    ⦃post⟨fun a s => ⌜s = w ∧ multimodalPrompt env (env.request r) (w.out r).promptIds = .ok a⌝,
      fun p s => ⌜s = w ∧ p.stage = .prepare ∧
        ∃ e, multimodalPrompt env (env.request r) (w.out r).promptIds = .error e⌝⟩⦄ := by
  have walk : (env.request r).mmImages.mapM env.decodeImage =
      (env.request r).mmImages.zipIdx.mapM fun p => env.decodeImage p.1 := by
    conv_lhs => rw [← List.zipIdx_map_fst 0 (env.request r).mmImages, List.mapM_map]
    rfl
  unfold promptInPlace
  mvcgen invariants
  · post⟨fun xs s => ⌜s = w ∧ ( List.Cursor.prefix xs.1).mapM (fun p => env.decodeImage p.1) = .ok xs.2⌝,
      fun p s => ⌜s = w ∧ p.stage = .prepare ∧ ∃ e, multimodalPrompt env (env.request r) (w.out r).promptIds = .error e⌝⟩
  case vc1 =>
    rename_i none _ start
    exact ⟨start, rfl, .multimodal, by simp [multimodalPrompt, none]; rfl⟩
  case vc2 =>
    rename_i before p after loop _ _ h image _ decoded
    exact ⟨decoded.1.trans h.1, mapM_snoc h.2 decoded.2⟩
  case vc3 =>
    rename_i vision _ _ _ _ _ before p after loop _ _ h _
    rintro _ rfl rfl (fault | ⟨e, stop⟩)
    · cases fault
    · have stuck : (env.request r).mmImages.mapM env.decodeImage = .error e := by
        rw [walk, loop]
        exact mapM_stops h.2 stop
      exact ⟨h.1, rfl, e, by simp [multimodalPrompt, vision, stuck]; rfl⟩
  case vc4 =>
    rename_i start _ _ same
    exact ⟨same.trans start, rfl⟩
  case vc5 =>
    rename_i vision _ _ _ _ _ images s h given
    obtain ⟨rfl, decoded⟩ := h
    exact ⟨rfl, by simp [multimodalPrompt, vision, walk, decoded, given]⟩
  case vc6 =>
    rename_i vision _ _ _ _ _ images s h given none
    obtain ⟨rfl, decoded⟩ := h
    exact ⟨rfl, rfl, .multimodal, by simp [multimodalPrompt, vision, walk, decoded, not_not.mp given, none]; rfl⟩
  case vc7 =>
    rename_i vision _ _ _ _ _ images s h given tok ids _ rendered
    obtain ⟨rfl, decoded⟩ := h
    obtain ⟨rfl, rendered⟩ := rendered
    exact ⟨rfl, by simp [multimodalPrompt, vision, walk, decoded, not_not.mp given, tok, rendered]⟩
  case vc8 =>
    rename_i vision _ _ _ _ _ images s h given tok _ _
    obtain ⟨rfl, decoded⟩ := h
    rintro rfl rfl (fault | ⟨e, stop⟩)
    · cases fault
    · exact ⟨rfl, rfl, e, by simp [multimodalPrompt, vision, walk, decoded, not_not.mp given, tok, stop]⟩
  case vc10 =>
    rintro - - fault
    cases fault

/-- The two caches hold layers of one shape. -/
def Mergeable [Slot V] (w : Worker V K G) (fresh : BatchKVCache V) : Prop :=
  ∀ cache, w.cache = some cache → List.Forall₂ Layer.Matches cache.layers fresh.layers

theorem adoptInPlace_agrees [Slot V] (w : Worker V K G) {fresh : BatchKVCache V} (ids : List Nat)
    (mergeable : Mergeable w fresh) :
    ⦃fun s => ⌜s = w⌝⦄ adoptInPlace quiet fresh ids
    ⦃post⟨fun _ s => ⌜w.adopt fresh ids = .ok s⌝, fun p s => ⌜p.stage = .merge ∧ (∃ e, w.adopt fresh ids = .error e) ∧
        s = { w with cache := w.cache.map (leftover · fresh) }⌝⟩⦄ := by
  unfold adoptInPlace
  mvcgen
  case vc1 =>
    rename_i start none _ _ _
    subst start
    rw [adopt, none]
  case vc2 =>
    rintro - - fault
    cases fault
  case vc3 =>
    rename_i start cache live _ merged run
    subst start
    have ok := returned (BatchKVCache.mergeInPlace_agrees (mergeable cache live)) rfl run
    simp only [adopt, live, ok, ok_bind]
    rfl
  case vc4 =>
    rename_i start cache live p torn run
    subst start
    obtain ⟨e, stuck⟩ := thrown (BatchKVCache.mergeInPlace_agrees (mergeable cache live)) rfl run
    have run : BatchKVCache.mergeInPlace quiet fresh cache = .error p torn := run
    have left : leftover cache fresh = torn := by rw [leftover, run]
    exact ⟨rfl, ⟨e, by simp only [adopt, live, stuck]; rfl⟩, by rw [live, ← left]; rfl⟩

theorem compileGrammar_agrees (w : Worker V K G) :
    ⦃fun s => ⌜s = w⌝⦄ compileGrammar quiet env r
    ⦃post⟨fun _ s => ⌜s = if env.tok && (env.request r).jsonSchema != "" then
        w.update r fun o => { o with grammar := some (env.fromSchemaString (env.request r).jsonSchema) } else w⌝,
      fun _ _ => ⌜False⌝⟩⦄ := by
  unfold compileGrammar
  mvcgen
  all_goals grind [quiet]

theorem maskInPlace_agrees (w : Worker V K G) (o : Output G) :
    ⦃fun s => ⌜s = w⌝⦄ maskInPlace quiet env o ⦃post⟨fun _ s => ⌜s = w⌝, fun _ _ => ⌜False⌝⟩⦄ := by
  unfold maskInPlace
  mvcgen
  all_goals grind [quiet]

theorem sampleInPlace_agrees (env : WorkerEnv V L K G I) (row : Row K) (b : Nat) (w : Worker V K G) (logits : L)
    (live : w.row? b = some row) :
    ⦃fun s => ⌜s = w⌝⦄ sampleInPlace quiet env b logits
    ⦃post⟨fun a s => ⌜s = w.advanceKeys env b 1 ∧ sampleRow env (env.request row.req) (w.out row.req) row logits = .ok a⌝,
      fun p s => ⌜s = w.advanceKeys env b 1 ∧ p.stage = .register ∧
        ∃ e, sampleRow env (env.request row.req) (w.out row.req) row logits = .error e⌝⟩⦄ := by
  unfold sampleInPlace
  mvcgen [maskInPlace_agrees]
  all_goals grind [quiet, AdmitPoint.stage]

/-- The row `pushRow` adds is the one behind the rows there were. -/
theorem pushRow_last (aligned : w.Aligned rows) :
    (w.pushRow env r).row? w.reqs.length = some (freshRow env (w.out r) r) := by
  rw [(pushRow_spec env aligned r).1.row?, aligned.length, List.getElem?_append_right le_rfl, Nat.sub_self]
  rfl

theorem registerRows_one (aligned : w.Aligned rows) (flags : List Nat) (logits : L) :
    w.registerRows env flags [r] [logits] = do
      let s ← sampleRow env (env.request r) ((w.pushRow env r).out r) (freshRow env (w.out r) r) logits
      return eachRow [firstToken env flags s] w.reqs.length ((w.pushRow env r).advanceKeys env w.reqs.length 1) := by
  have pushed : w.pushRows env [r] = w.pushRow env r := rfl
  have req : (freshRow env (w.out r) r).req = r := rfl
  simp only [registerRows, pushed, sampleRows, List.length_singleton, List.range_one, List.mapM_cons, List.mapM_nil,
    Nat.add_zero, pushRow_last aligned, List.getElem?_cons_zero, req]
  cases sampleRow env (env.request r) ((w.pushRow env r).out r) (freshRow env (w.out r) r) logits <;> rfl

theorem registerInPlace_agrees (env : WorkerEnv V L K G I) (rows : List (Row K)) (w : Worker V K G) (flags : List Nat)
    (r : Nat) (logits : L) (aligned : w.Aligned rows) :
    ⦃fun s => ⌜s = w⌝⦄ registerInPlace quiet env flags r logits
    ⦃post⟨fun _ s => ⌜w.registerRows env flags [r] [logits] = .ok s⌝,
      fun p s => ⌜p.stage = .register ∧ (∃ e, w.registerRows env flags [r] [logits] = .error e) ∧
        s = (w.pushRows env [r]).advanceKeys env w.reqs.length 1⌝⟩⦄ := by
  have sampled := sampleInPlace_agrees env (freshRow env (w.out r) r)
  rw [registerRows_one aligned]
  unfold registerInPlace
  mvcgen [compileGrammar_agrees, sampled]
  case vc1 =>
    rename_i start _ _ keyed _ _ _ compiled
    subst start keyed
    rw [compiled]
    exact pushRow_last aligned
  case vc2 =>
    rename_i s start _ _ keyed _ _ _ compiled sample _ drawn _
    subst s keyed
    have pushed : _ = w.pushRow env r := compiled
    obtain ⟨rfl, drawn⟩ := drawn
    rw [pushed] at drawn
    have one : sampleRow env (env.request r) ((w.pushRow env r).out r) (freshRow env (w.out r) r) logits = .ok sample :=
      drawn
    rw [one, ← pushed]
    rfl
  case vc3 =>
    rename_i s start _ _ keyed _ _ _ compiled _ _
    subst s keyed
    have pushed : _ = w.pushRow env r := compiled
    rw [pushed]
    rintro left stage ⟨e, stop⟩
    have one : sampleRow env (env.request r) ((w.pushRow env r).out r) (freshRow env (w.out r) r) logits = .error e :=
      stop
    exact ⟨stage, ⟨e, by rw [one]; rfl⟩, left⟩
  case vc4 =>
    rintro - - fault
    cases fault

/-- The block as `admitMultimodal` has it. -/
theorem admitInPlace_agrees [Slot V] (aligned : w.Aligned rows) (flags : List Nat) (r : Nat)
    (mergeable : ∀ ids images pf, env.prefillMultimodal ids images = .ok pf → Mergeable w pf.1)
    (torn : ∀ cache fresh, env.torn cache fresh = leftover cache fresh) :
    ⦃fun s => ⌜s = w⌝⦄ admitInPlace quiet env flags r
    ⦃post⟨fun _ s => ⌜w.admitMultimodal env flags r = s⌝,
      fun p s => ⌜w.admitMultimodal env flags r = s.fail r p.stage⌝⟩⦄ := by
  have registered := registerInPlace_agrees env rows
  unfold admitInPlace
  mvcgen [promptInPlace_agrees, adoptInPlace_agrees, registered]
  case vc1 =>
    rename_i s start prompt s₁ asked _ pf _ drafted
    subst s
    obtain ⟨same, -⟩ := asked
    subst s₁
    obtain ⟨rfl, prefilled⟩ := drafted
    exact mergeable _ _ _ prefilled
  case vc2 =>
    rename_i s start prompt s₁ asked _ pf _ drafted _ t adopted _ u
    subst s
    obtain ⟨same, asked⟩ := asked
    subst s₁
    obtain ⟨rfl, prefilled⟩ := drafted
    intro done
    have joined : Worker.adopt (w.update r fun o => { o with promptIds := prompt.1 }) pf.1 [r] = .ok t := adopted
    simp only [admitMultimodal, asked, prefilled, joined, done]
  case vc3 =>
    rename_i s start prompt s₁ asked _ pf _ drafted _ t adopted p u
    subst s
    obtain ⟨same, asked⟩ := asked
    subst s₁
    obtain ⟨rfl, prefilled⟩ := drafted
    rintro stage ⟨e, stop⟩ left
    have joined : Worker.adopt (w.update r fun o => { o with promptIds := prompt.1 }) pf.1 [r] = .ok t := adopted
    simp only [admitMultimodal, asked, prefilled, joined, stop, stage, left]
  case vc4 =>
    rename_i s start prompt s₁ asked _ pf _ drafted _
    subst s
    obtain ⟨same, asked⟩ := asked
    subst s₁
    obtain ⟨rfl, prefilled⟩ := drafted
    intro t adopted
    obtain ⟨c, o, rfl, -⟩ := adopt_spec adopted
    exact aligned.congr rfl rfl rfl rfl rfl rfl
  case vc5 =>
    rename_i s start prompt s₁ asked _ pf _ drafted p u
    subst s
    obtain ⟨same, asked⟩ := asked
    subst s₁
    obtain ⟨rfl, prefilled⟩ := drafted
    rintro stage ⟨e, stop⟩ left
    have stuck : Worker.adopt (w.update r fun o => { o with promptIds := prompt.1 }) pf.1 [r] = .error e := stop
    simp only [admitMultimodal, asked, prefilled, stuck, stage, left, torn]
    rfl
  case vc6 =>
    rename_i s start prompt s₁ asked _ p u
    subst s
    obtain ⟨same, asked⟩ := asked
    subst s₁
    rintro rfl rfl (fault | ⟨e, stop⟩)
    · cases fault
    · simp only [admitMultimodal, asked, stop]
      rfl
  case vc7 =>
    rename_i s start p u
    subst s
    rintro rfl stage ⟨e, stop⟩
    simp only [admitMultimodal, stop, stage]

/-- Without injected faults, the block and its handler are `admitMultimodal`. -/
theorem tryAdmit_agrees [Slot V] (aligned : w.Aligned rows) (flags : List Nat) (r : Nat)
    (mergeable : ∀ ids images pf, env.prefillMultimodal ids images = .ok pf → Mergeable w pf.1)
    (torn : ∀ cache fresh, env.torn cache fresh = leftover cache fresh) :
    tryAdmit quiet env flags r w = w.admitMultimodal env flags r := by
  have agrees := admitInPlace_agrees aligned flags r mergeable torn
  unfold tryAdmit
  cases run : admitInPlace quiet env flags r w with
  | ok _ t => exact (returned agrees rfl run).symm
  | error p t => exact (thrown agrees rfl run).symm

end Agreement
end Worker
end Mlxforge
