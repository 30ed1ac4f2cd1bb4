import Mlxforge.Runtime.ServedRuns

/-!
An engine that serves a text decoder with a sampler that does not throw: no step of its worker throws, so the worker
stops only to wait for requests, or for good once it was told to.
-/

namespace Mlxforge

variable {V H Q L K G I : Type} [Slot V]

/-- Sampling a row of logits never throws. -/
def WorkerEnv.Samples (env : WorkerEnv V L K G I) : Prop :=
  ∀ l params key seen, ∃ out, env.sample l params key seen = .ok out

namespace Worker

variable {env : WorkerEnv V L K G I} {m : DecoderModel V H Q L} {greedy : L → Int} {record : L → Int → TokenLogprob Rat}
  {w : Worker V K G} {cancelled flags ids hand : List Nat} {rows : List (Row K)} {last : List L}

omit [Slot V] in
theorem sampleRow_total (samples : env.Samples) (req : Request) (o : Output G) (row : Row K) (l : L) :
    ∃ s, sampleRow env req o row l = .ok s := by
  have drawn {x : Except Fault (Int × TokenLogprob Rat)} (ok : ∃ out, x = .ok out) (sampled : Int × TokenLogprob Rat → Sampled) :
      ∃ s, (x >>= fun out => pure (sampled out)) = .ok s := by
    obtain ⟨out, rfl⟩ := ok
    exact ⟨_, rfl⟩
  exact drawn (samples _ _ _ _) fun out => ⟨out.1, if 0 ≤ req.params.topLogprobs then some out.2 else none⟩

omit [Slot V] in
theorem sampleRows_total (samples : env.Samples) (aligned : w.Aligned rows) (offset count : Nat)
    (inside : offset + count ≤ rows.length) (logits : count ≤ last.length) :
    ∃ sampled, w.sampleRows env last offset count = .ok sampled := by
  unfold sampleRows
  refine (mapM_forall₂ (P := fun _ _ => True) fun i member => ?_).imp fun _ ran => ran.1
  have below := List.mem_range.mp member
  rw [aligned.row?, List.getElem?_eq_getElem (by omega), List.getElem?_eq_getElem (by omega)]
  obtain ⟨s, ok⟩ := sampleRow_total samples (env.request rows[offset + i].req) (w.out rows[offset + i].req)
    rows[offset + i] last[i]
  exact ⟨s, ok, trivial⟩

omit [Slot V] in
theorem registerRows_total (samples : env.Samples) (aligned : w.Aligned rows) (flags : List Nat) (distinct : ids.Nodup)
    (count : last.length = ids.length) : ∃ w', w.registerRows env flags ids last = .ok w' := by
  obtain ⟨pushed, -⟩ := pushRows_spec env aligned distinct
  obtain ⟨sampled, ok⟩ := sampleRows_total samples pushed w.reqs.length ids.length
    (by rw [List.length_append, List.length_map, aligned.length]) (le_of_eq count.symm)
  simp only [registerRows, ok, ok_bind]
  exact ⟨_, rfl⟩

theorem adopt_total {contexts prompts : List (List Int)} {fresh : BatchKVCache V} (held : w.Caches env m contexts)
    (holds : m.Holds env.kvQuant prompts fresh) (ids : List Nat) : ∃ w', w.adopt fresh ids = .ok w' := by
  unfold adopt
  unfold Caches at held
  cases cached : w.cache with
  | none => exact ⟨_, rfl⟩
  | some c =>
    rw [cached] at held
    obtain ⟨merged, ok, -⟩ := DecoderModel.Holds.merge held holds
    simp only [ok, ok_bind]
    exact ⟨_, rfl⟩

/-- Prefilled requests can be registered behind their cache. -/
theorem joined_total (samples : env.Samples) (serving : w.Serving env m greedy record cancelled) (flags : List Nat) (distinct : ids.Nodup)
    {cache : BatchKVCache V} (filled : Prefilled m env.kvQuant (ids.map fun r => (env.request r).promptIds) cache last) :
    ∃ w₁ w', w.adopt cache ids = .ok w₁ ∧ w₁.registerRows env flags ids last = .ok w' := by
  obtain ⟨rows, contexts, aligned, held, fits⟩ := serving.rows
  have holds := DecoderModel.Holds.of_prefilled filled
  obtain ⟨w₁, adopted⟩ := adopt_total held holds ids
  obtain ⟨-, columns, -, -⟩ := adopt_caches held holds adopted
  obtain ⟨w', registered⟩ := registerRows_total samples (columns aligned) flags distinct
    (by rw [filled.lastCount, List.length_map])
  exact ⟨w₁, w', adopted, registered⟩

theorem admitCold_total (serves : env.Serves m greedy record) (samples : env.Samples)
    (serving : w.Serving env m greedy record cancelled) (tracked : Counted (ids ++ hand) w) (supplied : w.Supplied env)
    (flags : List Nat) (some : ids ≠ []) (texts : ∀ r ∈ ids, (env.request r).isMultimodal = false) :
    ∃ w', w.admitCold env flags ids = .ok w' := by
  have same : (ids.map fun r => (w.out r).promptIds) = ids.map fun r => (env.request r).promptIds :=
    List.map_congr_left fun r member => supplied.prompts r (texts r member)
  have distinct := (List.nodup_append.mp (Tracked.joining tracked).1).2.1
  obtain ⟨r, ran, filled⟩ := @prefill_spec _ _ _ _ _ m env.kvQuant (ids.map fun r => (env.request r).promptIds) _ _ 0
    serves.step (show 0 < prefillStepSize by decide) (by simpa using some) fun p member => by
      obtain ⟨r, among, rfl⟩ := List.mem_map.mp member
      exact serves.prompts r (texts r among)
  obtain ⟨w₁, w', adopted, registered⟩ := joined_total samples serving flags distinct filled
  refine ⟨w', ?_⟩
  unfold admitCold
  rw [same, serves.model]
  simp only [ran, ok_bind, adopted, registered]

theorem admitWarm_total (serves : env.Serves m greedy record) (samples : env.Samples)
    (serving : w.Serving env m greedy record cancelled) (flags : List Nat) {r : Nat} (supplied : w.Supplied env)
    (text : (env.request r).isMultimodal = false) {found : Match V} {bs : Nat}
    (holds : HoldsPrefix m env.kvQuant bs found.blocks found.tokens (env.request r).promptIds) :
    ∃ w', w.admitWarm env flags r found = .ok w' := by
  obtain ⟨warm, ran, filled⟩ := prefillWithPrefix_spec (m := m) serves.step (show 0 < prefillStepSize by decide) holds
  obtain ⟨w₁, w', adopted, registered⟩ := joined_total samples serving flags (List.nodup_singleton r) filled
  refine ⟨w', ?_⟩
  unfold admitWarm
  rw [supplied.prompts r text, serves.model]
  simp only [ran, ok_bind, adopted, registered]

theorem admitWarms_total (serves : env.Serves m greedy record) (samples : env.Samples) (flagged : flags ⊆ cancelled)
    (serving : w.Serving env m greedy record cancelled) {warm : List (Nat × Match V)}
    (tracked : Counted (warm.map Prod.fst ++ hand) w) (supplied : w.Supplied env)
    (texts : ∀ p ∈ warm, (env.request p.1).isMultimodal = false)
    (holds : ∀ p ∈ warm, ∃ bs, HoldsPrefix m env.kvQuant bs p.2.blocks p.2.tokens (env.request p.1).promptIds) :
    ∃ w', warm.foldlM (fun w p => w.admitWarm env flags p.1 p.2) w = .ok w' := by
  induction warm generalizing w with
  | nil => exact ⟨w, rfl⟩
  | cons p warm ih =>
    obtain ⟨text, texts⟩ := List.forall_mem_cons.mp texts
    obtain ⟨⟨bs, held⟩, holds⟩ := List.forall_mem_cons.mp holds
    obtain ⟨w₁, admitted⟩ := admitWarm_total serves samples serving flags supplied text held
    obtain ⟨w', rest⟩ := ih (admitWarm_serving serves flagged serving tracked supplied text ⟨bs, held⟩ admitted)
      (admitWarm_tracked EngineState.anyLaw tracked admitted).1 (supplied.keeps (keeps_admitWarm admitted)) texts holds
    refine ⟨w', ?_⟩
    rw [List.foldlM_cons]
    simp only [admitted, ok_bind, rest]

theorem admitGroup_total (serves : env.Serves m greedy record) (samples : env.Samples) (flagged : flags ⊆ cancelled)
    (serving : w.Serving env m greedy record cancelled) (tracked : Counted ids w) (supplied : w.Supplied env)
    (texts : ∀ r ∈ ids, (env.request r).isMultimodal = false) (holds : w.TrueMatches env m ids) :
    ∃ w', w.admitGroup env flags ids = .ok w' := by
  unfold admitGroup
  unfold TrueMatches at holds
  rcases ran : splitPrefix env w ids with ⟨split, w₁⟩
  rw [ran] at holds
  obtain ⟨⟨pool, rfl⟩, order⟩ := splitPrefix_spec ran
  have among : ∀ r ∈ split.warm.map Prod.fst ++ split.cold, (env.request r).isMultimodal = false := fun r member =>
    texts r (order.mem_iff.mp member)
  have warmTexts : ∀ p ∈ split.warm, (env.request p.1).isMultimodal = false := fun p member =>
    among p.1 (List.mem_append_left _ (List.mem_map_of_mem member))
  have order : ids.Perm (split.cold ++ split.warm.map Prod.fst) := order.symm.trans List.perm_append_comm
  have serving₁ := serving.pooled w.pending pool
  have tracked₁ := (pool_tracked (Q := fun _ _ => True) (tracked.perm order) pool).1
  have supplied₁ : Worker.Supplied env { w with prefixPool := pool } := ⟨supplied.prompts, supplied.units, supplied.chunked⟩
  dsimp only at holds ⊢
  split
  next none =>
    rw [none, List.nil_append, ← List.append_nil (split.warm.map Prod.fst)] at tracked₁
    exact admitWarms_total serves samples flagged serving₁ tracked₁ supplied₁ warmTexts holds
  next some =>
    have coldTexts : ∀ r ∈ split.cold, (env.request r).isMultimodal = false := fun r member =>
      among r (List.mem_append_right _ member)
    obtain ⟨w₂, cold⟩ := admitCold_total serves samples serving₁ tracked₁ supplied₁ flags some coldTexts
    have serving₂ := admitCold_serving serves flagged serving₁ tracked₁ supplied₁ some coldTexts cold
    have tracked₂ := (admitCold_tracked EngineState.anyLaw tracked₁ cold).1
    rw [← List.append_nil (split.warm.map Prod.fst)] at tracked₂
    obtain ⟨w', warm⟩ := admitWarms_total serves samples flagged serving₂ tracked₂ (supplied₁.keeps (keeps_admitCold cold))
      warmTexts holds
    exact ⟨w', by simp only [cold, ok_bind, warm]⟩

theorem enqueueAdmissions_total (serves : env.Serves m greedy record) (supplied : w.Supplied env)
    (texts : ∀ r ∈ ids, (env.request r).isMultimodal = false) (holds : w.TrueMatches env m ids) :
    ∃ w', w.enqueueAdmissions env ids = .ok w' := by
  unfold enqueueAdmissions
  unfold TrueMatches at holds
  rcases ran : splitPrefix env w ids with ⟨split, w₁⟩
  rw [ran] at holds
  obtain ⟨⟨pool, rfl⟩, order⟩ := splitPrefix_spec ran
  dsimp only at holds ⊢
  obtain ⟨warm, built, -⟩ := mapM_forall₂ (P := fun _ _ => True) (f := fun p : Nat × Match V =>
      PendingPrefill.warm env.model env.kStep p.1 (w.out p.1).promptIds p.2.blocks p.2.tokens env.kvQuant) fun p member => by
    obtain ⟨bs, held⟩ := holds p member
    obtain ⟨u, ok, -⟩ := PendingPrefill.warm_good (m := m) (q := env.kvQuant) p.1 serves.step held
    have text := texts p.1 (order.mem_iff.mp (List.mem_append_left _ (List.mem_map_of_mem member)))
    rw [supplied.prompts p.1 text, serves.model]
    exact ⟨u, ok, trivial⟩
  simp only [built, ok_bind]
  split
  · exact ⟨_, rfl⟩
  · exact ⟨_, rfl⟩

theorem admitIncoming_total (serves : env.Serves m greedy record) (samples : env.Samples) (flagged : flags ⊆ cancelled)
    (serving : w.Serving env m greedy record cancelled) (units : w.Units env m) (tracked : Counted ids w)
    (supplied : w.Supplied env) (holds : (dispatch env flags w ids).1.TrueMatches env m (dispatch env flags w ids).2) :
    ∃ w', w.admitIncoming env flags ids = .ok w' := by
  obtain ⟨serving₁, -⟩ := @dispatch_serving _ _ _ _ _ _ _ _ _ _ _ _ _ cancelled flags ids serves serving units
  obtain ⟨kept, among⟩ := @dispatch_spec _ _ _ _ _ env w flags _ ids
  unfold admitIncoming
  rcases ran : dispatch env flags w ids with ⟨w₁, gen⟩
  rw [ran] at holds serving₁ kept among
  rw [← List.append_nil ids] at tracked
  have tracked₁ := (dispatch_tracked EngineState.anyLaw tracked ran).1
  rw [List.append_nil] at tracked₁
  have texts : ∀ r ∈ gen, (env.request r).isMultimodal = false := fun r member => (among r member).2.2
  dsimp only at holds serving₁ kept ⊢
  split
  · exact ⟨w₁, rfl⟩
  split
  · exact enqueueAdmissions_total serves (supplied.keeps kept) texts holds
  · exact admitGroup_total serves samples flagged serving₁ tracked₁ (supplied.keeps kept) texts holds

theorem advanceChunkedPrefill_total (serves : env.Serves m greedy record) (samples : env.Samples)
    (serving : w.Serving env m greedy record cancelled) (units : w.Units env m) (tracked : Counted [] w)
    (supplied : w.Supplied env) (flags : List Nat) : ∃ w', w.advanceChunkedPrefill env flags = .ok w' := by
  unfold advanceChunkedPrefill
  split
  · exact ⟨w, rfl⟩
  next p rest queue =>
    have chunked := supplied.chunked (by rw [queue]; exact List.cons_ne_nil _ _)
    have good : p.Good m env.kvQuant (p.reqs.map fun r => (env.request r).promptIds) := units p (by rw [queue]; simp)
    obtain ⟨p', last, ran, reqs, -, outcome⟩ := PendingPrefill.advance_spec (m := m) chunked good
    rw [serves.model]
    simp only [ran, ok_bind]
    rcases outcome with ⟨rfl, -⟩ | ⟨logits, rfl, filled⟩
    · exact ⟨_, rfl⟩
    · rw [← reqs] at filled
      have distinct : p'.reqs.Nodup := by
        rw [List.nodup_iff_count_le_one]
        intro r
        have once := tracked.once r
        simp only [live, pendingReqs, queue, List.flatMap_cons, ← reqs, List.count_append] at once
        omega
      obtain ⟨w₁, w', adopted, registered⟩ := joined_total samples (serving.pooled (p' :: rest) w.prefixPool) flags distinct filled
      simp only [adopted, ok_bind, registered]
      exact ⟨_, rfl⟩

theorem decodeStep_total (serves : env.Serves m greedy record) (samples : env.Samples)
    (serving : w.Serving env m greedy record cancelled) (some : w.reqs ≠ []) (flags : List Nat) :
    ∃ w', w.decodeStep env flags = .ok w' := by
  obtain ⟨rows, contexts, aligned, held, fits⟩ := serving.rows
  have count := fits.length_eq
  have feeds : w.feed.length = contexts.length := by rw [aligned.feed, List.length_map, count]
  unfold decodeStep
  unfold Caches at held
  unfold paddedCache
  rw [aligned.length, count]
  dsimp only
  have bucket := le_nextBucket contexts.length
  generalize nextBucket contexts.length = n at *
  cases cached : w.cache with
  | none =>
    rw [cached] at held
    rw [aligned.reqs, List.length_eq_zero_iff.mp (count.trans (by rw [held]; rfl))] at some
    exact absurd rfl some
  | some c =>
    rw [cached] at held
    obtain ⟨padded, pads, filled⟩ := padded_holds held (n - contexts.length)
    obtain ⟨logits, stepped, ok, lBatch, -⟩ := filled.forward
      (show (w.feed ++ List.replicate (n - contexts.length) 0).length = _ by simp [feeds])
      (show (⟨n, 1, fun b _ => (w.feed ++ List.replicate (n - contexts.length) 0).getD b 0⟩ : KvArray Int).batch = _ by
        simp only [List.length_append, List.length_replicate]; omega) rfl fun b => rfl
    have enough : contexts.length ≤ (logitRows logits).length := by
      simp only [logitRows, List.length_map, List.length_range, lBatch, List.length_append]
      omega
    obtain ⟨sampled, drawn⟩ := sampleRows_total samples aligned 0 contexts.length (by rw [Nat.zero_add, count]) enough
    have forwarded : m.loaded.forward ⟨n, 1, fun b _ => (w.feed ++ List.replicate (n - contexts.length) 0).getD b 0⟩ padded =
        .ok (logits, stepped) := ok
    rw [serves.model]
    simp only [pads, ok_bind, forwarded, drawn]
    exact ⟨_, rfl⟩

end Worker

namespace EngineState

open Transition (Reachable)

variable {env : WorkerEnv V L K G I} {m : DecoderModel V H Q L} {greedy : L → Int} {record : L → Int → TokenLogprob Rat}
  {s : EngineState V K G} {flags : List Nat} {maxWaiting : Int}

/-- The worker waits for a request, or has left its loop. -/
def Idle (s : EngineState V K G) : Prop :=
  s.location = .exited ∨ s.location = .top ∧ s.worker.reqs = [] ∧ s.worker.pending = [] ∧ s.sched.waiting = [] ∧
    s.sched.stopping = false

theorem workerStep_total (serves : env.Serves m greedy record) (samples : env.Samples)
    (keyed : env.prefixCfg.enabled = true → env.Keyed) (counted : Inv (fun _ _ => True) (fun _ _ => True) s)
    (served : Served env m greedy record s) (flagged : flags ⊆ s.cancelled) (busy : ¬s.Idle) :
    ∃ s', s.workerStep env flags = some s' := by
  have tracked : Worker.Tracked (fun _ _ => True) s.hand s.worker := counted.tracked
  unfold workerStep
  unfold Idle at busy
  cases location : s.location with
  | top =>
    dsimp only
    split
    next idle =>
      rw [Bool.and_eq_true, List.isEmpty_iff, List.isEmpty_iff] at idle
      have more : s.sched.waiting ≠ [] ∨ s.sched.stopping = true := by
        by_contra none
        rw [not_or, not_not, Bool.not_eq_true] at none
        exact busy (.inr ⟨location, idle.1, idle.2, none.1, none.2⟩)
      unfold Scheduler.nextWaiting
      cases waiting : s.sched.waiting with
      | nil =>
        have stopping := more.resolve_left (not_not.mpr waiting)
        rw [stopping]
        exact ⟨_, rfl⟩
      | cons r rest => exact ⟨_, rfl⟩
    next =>
      split
      · exact ⟨_, rfl⟩
      · exact ⟨_, rfl⟩
  | tookFirst r => exact ⟨_, rfl⟩
  | admitting incoming =>
    rw [hand, location] at tracked
    have holds : (s.worker.dispatch env flags incoming).1.TrueMatches env m (s.worker.dispatch env flags incoming).2 :=
      Worker.trueMatches_of_pooled keyed serves.text served.pooled served.clean served.supplied.worker _ _
    obtain ⟨w', ran⟩ := Worker.admitIncoming_total serves samples flagged served.serving served.units tracked
      served.supplied.worker holds
    dsimp only
    rw [ran]
    exact ⟨_, rfl⟩
  | advancing =>
    rw [hand, location] at tracked
    obtain ⟨w', ran⟩ := Worker.advanceChunkedPrefill_total serves samples served.serving served.units tracked
      served.supplied.worker flags
    dsimp only
    rw [ran]
    exact ⟨_, rfl⟩
  | evicting => exact ⟨_, rfl⟩
  | decoding =>
    obtain ⟨w', ran⟩ := Worker.decodeStep_total serves samples served.serving (served.batch location) flags
    dsimp only
    rw [ran]
    exact ⟨_, rfl⟩
  | evictingDecoded => exact ⟨_, rfl⟩
  | exited => exact absurd (.inl location) busy

end EngineState

end Mlxforge
