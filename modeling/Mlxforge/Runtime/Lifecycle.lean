import Mlxforge.Runtime.WorkerLoop

/-!
Conservation of requests. Every operation of the worker keeps `Tracked` and only `Moves` requests, whatever the property
of rows is that a law carries along.
-/

namespace Mlxforge

variable {V L K G I : Type}

namespace Worker

variable {env : WorkerEnv V L K G I} {hand hand' flags : List Nat} {w w' : Worker V K G}
  {P : Output G → Row K → Prop} {Q : Nat → Output G → Prop} {rows : List (Row K)} {before after : Output G} {r : Nat} {l : L}
  {row row' : Row K}

/-! ### One row -/

/-- A first token leaves the closes alone, and names a reason for a row it finishes. -/
theorem Registered.frame (registered : Registered env flags before r l row after) :
    row.req = r ∧ after.closes = before.closes ∧ (row.finished = true → after.finishReason ≠ "") := by
  obtain ⟨s, _, ran⟩ := registered
  simp only [firstToken] at ran
  split at ran
  · obtain ⟨rfl, rfl⟩ := Prod.mk.inj ran
    exact ⟨rfl, by simp [advanceGrammar], fun _ => by simp⟩
  · obtain ⟨_, closes, reason⟩ := Output.consume_frame (env.request (keyUsed env (freshRow env before r)).req)
      (advanceGrammar env (compiled env r before) s.id) (keyUsed env (freshRow env before r)).produced s
    obtain ⟨rfl, rfl⟩ := Prod.mk.inj ran
    refine ⟨rfl, closes.trans (by simp [advanceGrammar]), fun done => reason ?_⟩
    by_contra going
    simp only [going, if_false] at done
    cases done

/-- So does a decode step. -/
theorem Decoded.frame (decoded : Decoded env flags before row l row' after)
    (marked : row.finished = true → before.finishReason ≠ "") :
    row'.req = row.req ∧ after.closes = before.closes ∧ (row'.finished = true → after.finishReason ≠ "") := by
  obtain ⟨s, _, ran⟩ := decoded
  simp only [nextToken] at ran
  split at ran
  · rename_i done
    obtain ⟨rfl, rfl⟩ := Prod.mk.inj ran
    exact ⟨rfl, rfl, fun _ => marked done⟩
  · split at ran
    · obtain ⟨rfl, rfl⟩ := Prod.mk.inj ran
      exact ⟨rfl, rfl, fun _ => by simp⟩
    · rename_i unfinished _
      obtain ⟨_, closes, reason⟩ := Output.consume_frame (env.request (keyUsed env row).req)
        (advanceGrammar env before s.id) (keyUsed env row).produced s
      obtain ⟨rfl, rfl⟩ := Prod.mk.inj ran
      refine ⟨rfl, closes, fun done => reason ?_⟩
      simpa [unfinished] using done

/-! ### The rows of the cache -/

section
variable [Slot V] {c c' fresh : BatchKVCache V}

theorem merge_batch (ok : c.merge fresh = .ok c') : c'.batch = c.batch + fresh.batch := by
  unfold BatchKVCache.merge at ok
  simp only [bind, Except.bind, pure, Except.pure, throw, throwThe, MonadExceptOf.throw] at ok
  split at ok
  · cases ok
  · split at ok
    · rename_i empty
      rw [← Except.ok.inj ok, empty, Nat.add_zero]
    · split at ok
      · rename_i empty
        rw [← Except.ok.inj ok, empty, Nat.zero_add]
      · split at ok
        · cases ok
        · rw [← Except.ok.inj ok]

theorem padDummies_batch {extra : Nat} (ok : c.padDummies extra = .ok c') : c'.batch = c.batch + extra := by
  unfold BatchKVCache.padDummies at ok
  simp only [bind, Except.bind, pure, Except.pure] at ok
  split at ok
  · rename_i none
    rw [← Except.ok.inj ok, none, Nat.add_zero]
  · split at ok
    · cases ok
    · rw [← Except.ok.inj ok]

theorem filter_batch (c : BatchKVCache V) (keep : List Nat) : (c.filter keep).batch = keep.length := by
  simp only [BatchKVCache.filter]
  split <;> rfl

theorem fromPrefix_batch {kStep nLayers : Nat} {blocks : List (KVBlock V)} {len : Int} {q : KVQuantConfig}
    (ok : BatchKVCache.fromPrefix kStep nLayers blocks len q = .ok c) : c.batch = 1 := by
  unfold BatchKVCache.fromPrefix at ok
  simp only [bind, Except.bind, pure, Except.pure] at ok
  split at ok
  · rw [← Except.ok.inj ok]
    rfl
  · split at ok
    · cases ok
    · rw [← Except.ok.inj ok]
      rfl

omit [Slot V] in
theorem chunkLoop_batch {m : LoadedModel V L} {stepSize fuel n : Nat} {tokens : KvArray Int} {logits logits' : KvArray L}
    (ok : chunkLoop m stepSize tokens fuel n logits c = .ok (logits', c')) : c'.batch = c.batch := by
  induction fuel generalizing n logits c with
  | zero =>
    obtain ⟨_, rfl⟩ := Prod.mk.inj (Except.ok.inj ok)
    rfl
  | succ fuel ih =>
    unfold chunkLoop at ok
    split at ok
    · obtain ⟨⟨logits, stepped⟩, forwarded, ok⟩ := bind_ok ok
      rw [ih ok, m.forward_batch forwarded]
    · obtain ⟨_, rfl⟩ := Prod.mk.inj (Except.ok.inj ok)
      rfl

omit [Slot V] in
theorem prefill_batch {m : LoadedModel V L} {kStep stepSize : Nat} {prompts : List (List Int)} {padId : Int}
    {q : KVQuantConfig} {pr : PrefillResult V L} (ok : prefill m kStep prompts stepSize padId q = .ok pr) :
    pr.cache.batch = prompts.length := by
  unfold prefill at ok
  obtain ⟨⟨logits, cache⟩, looped, ok⟩ := bind_ok ok
  obtain rfl := pure_ok ok
  have batch := chunkLoop_batch looped
  simpa [BatchKVCache.new, leftPad] using batch

theorem prefillWithPrefix_batch {m : LoadedModel V L} {kStep cachedLen stepSize : Nat} {prompt : List Int}
    {blocks : List (KVBlock V)} {q : KVQuantConfig} {pr : PrefillResult V L}
    (ok : prefillWithPrefix m kStep prompt blocks cachedLen stepSize q = .ok pr) : pr.cache.batch = 1 := by
  unfold prefillWithPrefix at ok
  obtain ⟨cache, seeded, ok⟩ := bind_ok ok
  obtain ⟨⟨logits, cache'⟩, looped, ok⟩ := bind_ok ok
  obtain rfl := pure_ok ok
  exact (chunkLoop_batch looped).trans (fromPrefix_batch seeded)

theorem adopt_spec {ids : List Nat} (ok : w.adopt fresh ids = .ok w') :
    ∃ c o, w' = { w with cache := some c, owners := o } ∧
      (w.CacheOk → fresh.batch = ids.length → c.batch = w.reqs.length + ids.length ∧ o = w.reqs ++ ids) := by
  unfold adopt at ok
  unfold CacheOk
  cases held : w.cache with
  | none =>
    rw [held] at ok
    refine ⟨fresh, ids, (Except.ok.inj ok).symm, fun empty batch => ?_⟩
    rw [empty, batch]
    simp
  | some cache =>
    rw [held] at ok
    obtain ⟨merged, joined, ok⟩ := bind_ok ok
    refine ⟨merged, w.owners ++ ids, (pure_ok ok).symm, fun ⟨rows, owners⟩ batch => ?_⟩
    rw [merge_batch joined, rows, batch, owners]
    exact ⟨rfl, rfl⟩

end

/-! ### Registration -/

theorem Tracked.distinct {ids : List Nat} (tracked : Tracked P (ids ++ hand) w) (aligned : w.Aligned rows) :
    (rows.map Row.req ++ ids).Nodup := by
  rw [List.nodup_iff_count_le_one]
  intro r
  have once := tracked.once r
  rw [live, aligned.reqs] at once
  simp only [List.count_append] at once ⊢
  omega

theorem Tracked.separate (ids : List Nat) (tracked : Tracked P (ids ++ hand) w) {r : Nat} (member : r ∈ ids) :
    r ∉ hand ++ w.pendingReqs ∧ r ∉ w.reqs := by
  have once := tracked.once r
  have here := List.count_pos_iff.mpr member
  simp only [live, List.count_append] at once
  constructor
  · intro other
    have there := List.count_pos_iff.mpr other
    rw [List.count_append] at there
    omega
  · intro other
    have there := List.count_pos_iff.mpr other
    omega

/-- Registered requests move from the hand to the rows. -/
theorem registered_tracked (law : RowLaw env P Q) {ids : List Nat} {new : List (Row K)}
    (tracked : Tracked P (ids ++ hand) w) (aligned : w.Aligned rows)
    (old : ∀ row ∈ rows, (row.finished = true → (w.out row.req).finishReason ≠ "") ∧
      (¬w.Botched row.req → P (w.out row.req) row))
    (aligned' : w'.Aligned (rows ++ new)) (names : new.map Row.req = ids)
    (each : ∀ (i r : Nat), ids[i]? = some r → ∃ (flags : List Nat) (l : L) (row : Row K) (before : Output G),
      new[i]? = some row ∧ Untouched before ∧ Registered env flags before r l row (w'.out r))
    (others : ∀ r ∉ ids, w'.out r = w.out r) (pending : w'.pending = w.pending) (errors : w'.errors = w.errors)
    (cache : w.Clean → w'.CacheOk) : Tracked P hand w' ∧ Moves Q (ids ++ hand) hand w w' := by
  have reqs : w'.reqs = w.reqs ++ ids := by
    rw [aligned'.reqs, List.map_append, names, aligned.reqs]
  have count : ∀ r, (live hand w').count r = (live (ids ++ hand) w).count r := by
    intro r
    simp only [live, pendingReqs, pending, reqs, List.count_append]
    omega
  have clean : w'.Clean ↔ w.Clean := by rw [Clean, Clean, errors]
  have botched : ∀ r, w'.Botched r ↔ w.Botched r := fun r => by rw [Botched, Botched, errors]
  have newRow : ∀ row ∈ new, ∃ flags l before, Untouched before ∧
      Registered env flags before row.req l row (w'.out row.req) := by
    intro row member
    obtain ⟨i, at_i⟩ := List.mem_iff_getElem?.mp member
    have named : ids[i]? = some row.req := by rw [← names, List.getElem?_map, at_i]; rfl
    obtain ⟨flags, l, row', before, found, untouched, registered⟩ := each i row.req named
    obtain rfl : row = row' := Option.some.inj (at_i.symm.trans found)
    exact ⟨flags, l, before, untouched, registered⟩
  have oldRow : ∀ row ∈ rows, w'.out row.req = w.out row.req := by
    intro row member
    refine others _ fun other => (Tracked.separate _ tracked other).2 ?_
    rw [aligned.reqs]
    exact List.mem_map_of_mem member
  constructor
  · refine ⟨fun r => (count r).trans_le (tracked.once r), ?_, ⟨rows ++ new, aligned', ?_⟩, fun c => cache (clean.mp c), ?_⟩
    · intro r member
      have member : r ∈ hand ++ w.pendingReqs := by simpa [pendingReqs, pending] using member
      rw [others r fun other => (Tracked.separate _ tracked other).1 member]
      exact tracked.fresh r (by rcases List.mem_append.mp member with h | h <;> simp [h])
    · intro row member
      rcases List.mem_append.mp member with ahead | added
      · rw [oldRow row ahead, botched]
        exact old row ahead
      · obtain ⟨flags, l, before, untouched, registered⟩ := newRow row added
        exact ⟨registered.frame.2.2, fun _ => law.first untouched registered⟩
    · intro p member
      exact tracked.units p (pending ▸ member)
  · refine .of_count count (fun e member => errors ▸ member) fun r absent => ?_
    exact others r fun among => absent (by simp [live, among])

section
variable [Slot V]

/-- A fresh cache joins the batch's, and its requests are registered; `q` is what the queue of prefills holds meanwhile. -/
theorem joined_tracked (law : RowLaw env P Q) {ids : List Nat} {fresh : BatchKVCache V} {logits : List L}
    {q : List (PendingPrefill Nat V)} {w₁ : Worker V K G} (tracked : Tracked P (ids ++ hand) w)
    (batch : fresh.batch = ids.length) (adopted : { w with pending := q }.adopt fresh ids = .ok w₁)
    (registered : w₁.registerRows env flags ids logits = .ok w') :
    Tracked P hand { w' with pending := w.pending } ∧ Moves Q (ids ++ hand) hand w { w' with pending := w.pending } := by
  obtain ⟨rows, aligned, old⟩ := tracked.rows
  obtain ⟨c, o, rfl, joined⟩ := adopt_spec adopted
  have aligned₁ : Worker.Aligned { w with pending := q, cache := some c, owners := o } rows :=
    aligned.congr rfl rfl rfl rfl rfl rfl
  obtain ⟨new, aligned', names, each, others, rest⟩ := registerRows_spec aligned₁ (tracked.distinct aligned) registered
  refine registered_tracked law tracked aligned old (aligned'.congr rfl rfl rfl rfl rfl rfl) names ?_ others rfl rest.errors
    fun clean => ?_
  · intro i r at_i
    obtain ⟨l, row, -, found, sampled⟩ := each i r at_i
    exact ⟨flags, l, row, _, found, tracked.fresh r (by simp [List.mem_of_getElem? at_i]), sampled⟩
  · obtain ⟨size, owners⟩ := joined (tracked.cache clean) batch
    have reqs : w'.reqs = w.reqs ++ ids := by rw [aligned'.reqs, List.map_append, names, aligned.reqs]
    unfold CacheOk
    dsimp only
    rw [rest.cache, rest.owners, reqs]
    exact ⟨by rw [size, List.length_append], owners⟩

theorem adopted_tracked (law : RowLaw env P Q) (ids : List Nat) {fresh : BatchKVCache V} {logits : List L} {w₁ : Worker V K G}
    (tracked : Tracked P (ids ++ hand) w) (batch : fresh.batch = ids.length) (adopted : w.adopt fresh ids = .ok w₁)
    (registered : w₁.registerRows env flags ids logits = .ok w') : Tracked P hand w' ∧ Moves Q (ids ++ hand) hand w w' := by
  have pending : w'.pending = w.pending := by
    obtain ⟨rows, aligned, -⟩ := tracked.rows
    obtain ⟨c, o, rfl, -⟩ := adopt_spec adopted
    have aligned₁ : Worker.Aligned { w with cache := some c, owners := o } rows := aligned.congr rfl rfl rfl rfl rfl rfl
    exact (registerRows_spec aligned₁ (tracked.distinct aligned) registered).choose_spec.2.2.2.2.pending
  have joined := joined_tracked (q := w.pending) law tracked batch adopted registered
  rwa [← pending] at joined

end

/-! ### Requests that end without a token -/

/-- A request of the hand that is closed. -/
theorem closed_tracked (tracked : Tracked P (r :: hand) w) (columns : ∀ {rows}, w.Aligned rows → w'.Aligned rows)
    (pending : w'.pending = w.pending) (others : ∀ r' ≠ r, w'.out r' = w.out r')
    (errors : ∀ e ∈ w.errors, e ∈ w'.errors)
    (closed : (w'.out r).closes ≠ [] ∧ (¬w'.Botched r → Q r (w'.out r))) (cache : w'.Clean → w'.CacheOk) :
    Tracked P hand w' ∧ Moves Q (r :: hand) hand w w' := by
  obtain ⟨rows, aligned, old⟩ := tracked.rows
  have aligned' := columns aligned
  have reqs : w'.reqs = w.reqs := by rw [aligned'.reqs, aligned.reqs]
  have lives : live (r :: hand) w = r :: live hand w' := by
    simp only [live, pendingReqs, pending, reqs, List.cons_append]
  have once : ∀ r', (live hand w').count r' ≤ 1 := fun r' =>
    (List.count_le_count_cons).trans (by rw [← lives]; exact tracked.once r')
  have gone : r ∉ live hand w' := by
    have count := tracked.once r
    rw [lives, List.count_cons_self] at count
    exact fun member => absurd (List.count_pos_iff.mpr member) (by omega)
  have apart : ∀ r' ∈ live hand w', w'.out r' = w.out r' := fun r' member =>
    others r' fun same => gone (same ▸ member)
  refine ⟨⟨once, ?_, ⟨rows, aligned', ?_⟩, cache, fun p member => tracked.units p (pending ▸ member)⟩, ⟨?_, errors, ?_, ?_⟩⟩
  · intro r' member
    rw [apart r' (by simp only [live, List.mem_append] at member ⊢; exact .inl member)]
    exact tracked.fresh r' (by simp only [pendingReqs, pending] at member; simp [pendingReqs] at member ⊢; tauto)
  · intro row member
    have among : row.req ∈ w'.reqs := by
      rw [aligned'.reqs]
      exact List.mem_map_of_mem member
    rw [apart row.req (by simp [live, among])]
    obtain ⟨marked, holds⟩ := old row member
    exact ⟨marked, fun whole => holds fun botched => whole (errors _ botched)⟩
  · intro r'
    rw [lives]
    exact List.count_le_count_cons
  · intro r' absent
    refine others r' fun same => absent ?_
    rw [lives, same]
    exact List.mem_cons_self
  · intro r' member absent
    rw [lives] at member
    obtain rfl : r' = r := (List.mem_cons.mp member).resolve_right absent
    exact closed

/-- Work on an output that leaves it untouched. -/
theorem update_tracked (tracked : Tracked P (r :: hand) w) {f : Output G → Output G}
    (quiet : ∀ o, Untouched o → Untouched (f o)) :
    Tracked P (r :: hand) (w.update r f) ∧ Moves Q (r :: hand) (r :: hand) w (w.update r f) := by
  obtain ⟨rows, aligned, old⟩ := tracked.rows
  have others : ∀ r' ≠ r, (w.update r f).out r' = w.out r' := fun r' other => Function.update_of_ne other _ _
  have separate := Tracked.separate [r] tracked List.mem_cons_self
  refine ⟨⟨tracked.once, ?_, ⟨rows, aligned.congr rfl rfl rfl rfl rfl rfl, ?_⟩, tracked.cache, tracked.units⟩,
    .of_count (fun _ => rfl) (fun _ member => member) ?_⟩
  · intro r' member
    by_cases same : r' = r
    · subst same
      have updated : (w.update r' f).out r' = f (w.out r') := Function.update_self _ _ _
      rw [updated]
      exact quiet _ (tracked.fresh r' member)
    · rw [others r' same]
      exact tracked.fresh r' member
  · intro row member
    have among : row.req ∈ w.reqs := by
      rw [aligned.reqs]
      exact List.mem_map_of_mem member
    rw [others row.req fun same => separate.2 (same ▸ among)]
    exact old row member
  · intro r' absent
    exact others r' fun same => absent (by simp [live, same])

theorem handleEmbedding_tracked (law : RowLaw env P Q) (tracked : Tracked P (r :: hand) w) :
    Tracked P hand (w.handleEmbedding env r) ∧ Moves Q (r :: hand) hand w (w.handleEmbedding env r) := by
  have untouched := tracked.fresh r (by simp)
  have own : ∃ o : Output G, (w.handleEmbedding env r).out r = o.close ∧ o.tokens = [] ∧ o.closes = [] ∧
      (o.finishReason = "error" ∨ o.finishReason = "embed") := by
    unfold handleEmbedding
    refine ⟨_, Function.update_self _ _ _, ?_⟩
    split
    · exact ⟨untouched.tokens, untouched.closes, .inr rfl⟩
    · exact ⟨untouched.tokens, untouched.closes, .inl rfl⟩
  obtain ⟨o, closed, tokens, closes, reason⟩ := own
  refine closed_tracked tracked (fun aligned => aligned.congr rfl rfl rfl rfl rfl rfl) rfl
    (fun r' other => Function.update_of_ne other _ _) (fun _ member => member) ?_ tracked.cache
  rw [closed]
  exact ⟨by simp [Output.close], fun _ => law.quit tokens closes reason⟩

/-- A caught exception, thrown before the batch was touched or by the merge. -/
theorem fail_tracked (law : RowLaw env P Q) (tracked : Tracked P (r :: hand) w) (w₁ : Worker V K G) (stage : AdmitStage)
    (columns : ∀ {rows}, w.Aligned rows → w₁.Aligned rows) (pending : w₁.pending = w.pending)
    (others : ∀ r' ≠ r, w₁.out r' = w.out r') (errors : w₁.errors = w.errors) (untouched : Untouched (w₁.out r))
    (cache : stage = .prepare → w.Clean → w₁.CacheOk) :
    Tracked P hand (w₁.fail r stage) ∧ Moves Q (r :: hand) hand w (w₁.fail r stage) := by
  have own : (w₁.fail r stage).out r = { w₁.out r with finishReason := "error" }.close := Function.update_self _ _ _
  have more : (w₁.fail r stage).errors = w.errors ++ [(r, stage)] := by rw [← errors]; rfl
  refine closed_tracked tracked (fun aligned => (columns aligned).congr rfl rfl rfl rfl rfl rfl) pending ?_ ?_ ?_ ?_
  · intro r' other
    exact (Function.update_of_ne other _ _).trans (others r' other)
  · intro e member
    rw [more]
    exact List.mem_append_left _ member
  · rw [own]
    exact ⟨by simp [Output.close], fun _ => law.quit untouched.tokens untouched.closes (.inl rfl)⟩
  · intro clean
    rw [Clean, more] at clean
    exact cache (clean (r, stage) (by simp)) fun e member => clean e (List.mem_append_left _ member)

variable (env Q) in
/-- A registration that threw: the request is closed and stays in the batch. -/
theorem botched_tracked (tracked : Tracked P (r :: hand) w) (w₁ : Worker V K G)
    (columns : ∀ {rows}, w.Aligned rows → w₁.Aligned rows) (pending : w₁.pending = w.pending) (out : w₁.out = w.out)
    (errors : w₁.errors = w.errors) (n : Nat) (size : n = w₁.reqs.length) :
    Tracked P hand (((w₁.pushRows env [r]).advanceKeys env n 1).fail r .register) ∧
      Moves Q (r :: hand) hand w (((w₁.pushRows env [r]).advanceKeys env n 1).fail r .register) := by
  obtain ⟨rows, aligned, old⟩ := tracked.rows
  have separate := Tracked.separate [r] tracked List.mem_cons_self
  obtain ⟨pushed, -, othersPushed, rest⟩ := pushRow_spec env (columns aligned) r
  have used := advanceKeys_aligned env pushed
  rw [← (columns aligned).length, ← size] at used
  have aligned' : (((w₁.pushRows env [r]).advanceKeys env n 1).fail r .register).Aligned
      (rows ++ [keyUsed env (freshRow env (w₁.out r) r)]) := used.congr rfl rfl rfl rfl rfl rfl
  have others : ∀ r' ≠ r, (((w₁.pushRows env [r]).advanceKeys env n 1).fail r .register).out r' = w.out r' := by
    intro r' other
    rw [← out, ← othersPushed r' other]
    exact Function.update_of_ne other _ _
  have more : (((w₁.pushRows env [r]).advanceKeys env n 1).fail r .register).errors = w.errors ++ [(r, .register)] := by
    rw [← errors, ← rest.errors]
    rfl
  have unchanged : (((w₁.pushRows env [r]).advanceKeys env n 1).fail r .register).pending = w.pending := by
    rw [← pending]
    exact rest.pending
  have mono : ∀ e ∈ w.errors, e ∈ (((w₁.pushRows env [r]).advanceKeys env n 1).fail r .register).errors := by
    intro e member
    rw [more]
    exact List.mem_append_left _ member
  have reqs : (((w₁.pushRows env [r]).advanceKeys env n 1).fail r .register).reqs = w.reqs ++ [r] := by
    rw [aligned'.reqs, aligned.reqs]
    simp [keyUsed, freshRow]
  generalize ((w₁.pushRows env [r]).advanceKeys env n 1).fail r .register = w' at *
  have count : ∀ r', (live hand w').count r' = (live (r :: hand) w).count r' := by
    intro r'
    simp only [live, pendingReqs, unchanged, reqs, List.count_append, List.count_cons, List.count_nil]
    omega
  refine ⟨⟨fun r' => (count r').trans_le (tracked.once r'), ?_, ⟨_, aligned', ?_⟩, ?_, ?_⟩,
    .of_count count mono fun r' absent => others r' fun same => absent (by simp [live, same])⟩
  · intro r' member
    have member : r' ∈ hand ++ w.pendingReqs := by simpa [pendingReqs, unchanged] using member
    rw [others r' fun same => separate.1 (same ▸ member)]
    exact tracked.fresh r' (by rcases List.mem_append.mp member with h | h <;> simp [h])
  · intro row member
    rcases List.mem_append.mp member with ahead | added
    · have among : row.req ∈ w.reqs := by
        rw [aligned.reqs]
        exact List.mem_map_of_mem ahead
      rw [others row.req fun same => separate.2 (same ▸ among)]
      obtain ⟨marked, holds⟩ := old row ahead
      exact ⟨marked, fun whole => holds fun botched => whole (mono _ botched)⟩
    · obtain rfl := List.mem_singleton.mp added
      refine ⟨fun done => (by cases done), fun whole => absurd ?_ whole⟩
      rw [Botched, more]
      exact List.mem_append_right _ List.mem_cons_self
  · intro clean
    rw [Clean, more] at clean
    have stage := clean (r, .register) (List.mem_append_right _ List.mem_cons_self)
    cases stage
  · intro p member
    exact tracked.units p (unchanged ▸ member)

section
variable [Slot V]

variable (flags) in
theorem admitMultimodal_tracked (law : RowLaw env P Q) (tracked : Tracked P (r :: hand) w) :
    Tracked P hand (w.admitMultimodal env flags r) ∧ Moves Q (r :: hand) hand w (w.admitMultimodal env flags r) := by
  have untouched := tracked.fresh r (by simp)
  unfold admitMultimodal
  split
  · exact fail_tracked law tracked _ _ id rfl (fun _ _ => rfl) rfl untouched fun _ => tracked.cache
  next promptIds images prepared =>
    have quiet : ∀ o : Output G, Untouched o → Untouched { o with promptIds } := fun o h =>
      ⟨h.tokens, h.closes, h.finishReason⟩
    obtain ⟨tracked₁, moves₁⟩ := update_tracked tracked quiet
    dsimp only
    generalize w.update r (fun o => { o with promptIds }) = w₁ at *
    have untouched₁ := tracked₁.fresh r (by simp)
    split
    · obtain ⟨tracked', moves'⟩ := fail_tracked law tracked₁ _ .prepare id rfl (fun _ _ => rfl) rfl untouched₁
        fun _ => tracked₁.cache
      exact ⟨tracked', moves₁.trans moves'⟩
    next fresh lastLogits prefilled =>
      split
      · obtain ⟨tracked', moves'⟩ := fail_tracked law tracked₁
          { w₁ with cache := w₁.cache.map (env.torn · fresh) } .merge
          (fun aligned => aligned.congr rfl rfl rfl rfl rfl rfl) rfl (fun _ _ => rfl) rfl untouched₁ nofun
        exact ⟨tracked', moves₁.trans moves'⟩
      next w₂ adopted =>
        split
        · obtain ⟨c, o, rfl, -⟩ := adopt_spec adopted
          obtain ⟨tracked', moves'⟩ := botched_tracked env Q tracked₁
            { w₁ with cache := some c, owners := o } (fun aligned => aligned.congr rfl rfl rfl rfl rfl rfl) rfl rfl
            rfl _ rfl
          exact ⟨tracked', moves₁.trans moves'⟩
        next w₃ registered =>
          obtain ⟨tracked', moves'⟩ := adopted_tracked law [r] tracked₁ (env.prefillMultimodal_batch prefilled)
            adopted registered
          exact ⟨tracked', moves₁.trans moves'⟩

theorem dispatch_tracked (law : RowLaw env P Q) {ids gen : List Nat} (tracked : Tracked P (ids ++ hand) w)
    (ran : dispatch env flags w ids = (w', gen)) : Tracked P (gen ++ hand) w' ∧ Moves Q (ids ++ hand) (gen ++ hand) w w' := by
  induction ids generalizing w gen hand with
  | nil =>
    obtain ⟨rfl, rfl⟩ := Prod.mk.inj ran
    exact ⟨tracked, .of_perm (.refl _)⟩
  | cons r rest ih =>
    unfold dispatch at ran
    split at ran
    · obtain ⟨tracked₁, moves₁⟩ := handleEmbedding_tracked law tracked
      obtain ⟨tracked', moves'⟩ := ih tracked₁ ran
      exact ⟨tracked', moves₁.trans moves'⟩
    split at ran
    · obtain ⟨tracked₁, moves₁⟩ := admitMultimodal_tracked flags law tracked
      obtain ⟨tracked', moves'⟩ := ih tracked₁ ran
      exact ⟨tracked', moves₁.trans moves'⟩
    · rcases inner : dispatch env flags w rest with ⟨w₁, gen₁⟩
      rw [inner] at ran
      obtain ⟨rfl, rfl⟩ := Prod.mk.inj ran
      have behind : (r :: rest ++ hand).Perm (rest ++ r :: hand) := List.perm_middle.symm
      have ahead : (gen₁ ++ r :: hand).Perm (r :: gen₁ ++ hand) := List.perm_middle
      obtain ⟨tracked', moves'⟩ := ih (tracked.perm behind) inner
      exact ⟨tracked'.perm ahead, (Moves.of_perm behind).trans (moves'.trans (.of_perm ahead))⟩

/-! ### Admission -/

omit [Slot V] in
/-- The prefix pool is nobody's row. -/
theorem pool_tracked (tracked : Tracked P hand w) (pool : Option (PrefixCache V)) :
    Tracked P hand { w with prefixPool := pool } ∧ Moves Q hand hand w { w with prefixPool := pool } := by
  obtain ⟨rows, aligned, old⟩ := tracked.rows
  exact ⟨⟨tracked.once, tracked.fresh, ⟨rows, aligned.congr rfl rfl rfl rfl rfl rfl, old⟩, tracked.cache, tracked.units⟩,
    .of_count (fun _ => rfl) (fun _ member => member) fun _ _ => rfl⟩

omit [Slot V] in
theorem splitPrefix_spec {ids : List Nat} {split : PrefixSplit V} (ran : splitPrefix env w ids = (split, w')) :
    (∃ pool, w' = { w with prefixPool := pool }) ∧ (split.warm.map Prod.fst ++ split.cold).Perm ids := by
  induction ids generalizing w w' split with
  | nil =>
    obtain ⟨rfl, rfl⟩ := Prod.mk.inj ran
    exact ⟨⟨_, rfl⟩, .refl _⟩
  | cons r rest ih =>
    unfold splitPrefix at ran
    split at ran
    · rcases inner : splitPrefix env w rest with ⟨split₁, w₁⟩
      rw [inner] at ran
      obtain ⟨rfl, rfl⟩ := Prod.mk.inj ran
      obtain ⟨pool, order⟩ := ih inner
      exact ⟨pool, List.perm_middle.trans (order.cons r)⟩
    next pool held =>
      rcases lookup : pool.matchIds env.miss (w.out r).promptIds with ⟨m, pool'⟩
      rw [lookup] at ran
      dsimp only at ran
      rcases inner : splitPrefix env { w with prefixPool := some pool' } rest with ⟨split₁, w₁⟩
      rw [inner] at ran
      obtain ⟨⟨pool₁, rfl⟩, order⟩ := ih inner
      dsimp only at ran
      split at ran
      · obtain ⟨rfl, rfl⟩ := Prod.mk.inj ran
        exact ⟨⟨pool₁, rfl⟩, order.cons r⟩
      · obtain ⟨rfl, rfl⟩ := Prod.mk.inj ran
        exact ⟨⟨pool₁, rfl⟩, List.perm_middle.trans (order.cons r)⟩

theorem admitCold_tracked (law : RowLaw env P Q) {cold : List Nat} (tracked : Tracked P (cold ++ hand) w)
    (ok : w.admitCold env flags cold = .ok w') : Tracked P hand w' ∧ Moves Q (cold ++ hand) hand w w' := by
  unfold admitCold at ok
  obtain ⟨pr, prefilled, ok⟩ := bind_ok ok
  obtain ⟨w₁, adopted, registered⟩ := bind_ok ok
  have batch : pr.cache.batch = cold.length := by rw [prefill_batch prefilled, List.length_map]
  exact adopted_tracked law _ tracked batch adopted registered

theorem admitWarm_tracked (law : RowLaw env P Q) {m : Match V} (tracked : Tracked P (r :: hand) w)
    (ok : w.admitWarm env flags r m = .ok w') : Tracked P hand w' ∧ Moves Q (r :: hand) hand w w' := by
  unfold admitWarm at ok
  obtain ⟨pr, prefilled, ok⟩ := bind_ok ok
  obtain ⟨w₁, adopted, registered⟩ := bind_ok ok
  exact adopted_tracked law [r] tracked (prefillWithPrefix_batch prefilled) adopted registered

theorem admitWarms_tracked (law : RowLaw env P Q) {warm : List (Nat × Match V)}
    (tracked : Tracked P (warm.map Prod.fst ++ hand) w)
    (ok : warm.foldlM (fun w p => w.admitWarm env flags p.1 p.2) w = .ok w') :
    Tracked P hand w' ∧ Moves Q (warm.map Prod.fst ++ hand) hand w w' := by
  induction warm generalizing w with
  | nil =>
    obtain rfl := pure_ok ok
    exact ⟨tracked, .of_perm (.refl _)⟩
  | cons p warm ih =>
    rw [List.foldlM_cons] at ok
    obtain ⟨w₁, admitted, ok⟩ := bind_ok ok
    obtain ⟨tracked₁, moves₁⟩ := admitWarm_tracked law tracked admitted
    obtain ⟨tracked', moves'⟩ := ih tracked₁ ok
    exact ⟨tracked', moves₁.trans moves'⟩

theorem admit_tracked (law : RowLaw env P Q) {ids : List Nat} (tracked : Tracked P (ids ++ hand) w)
    (ok : w.admitGroup env flags ids = .ok w') : Tracked P hand w' ∧ Moves Q (ids ++ hand) hand w w' := by
  unfold admitGroup at ok
  rcases ran : splitPrefix env w ids with ⟨split, w₁⟩
  rw [ran] at ok
  obtain ⟨⟨pool, rfl⟩, order⟩ := splitPrefix_spec ran
  have order : (ids ++ hand).Perm (split.cold ++ (split.warm.map Prod.fst ++ hand)) := by
    rw [← List.append_assoc]
    exact (order.symm.trans List.perm_append_comm).append_right hand
  obtain ⟨tracked₁, moves₁⟩ := pool_tracked (Q := Q) (tracked.perm order) pool
  have moves₁ := (Moves.of_perm order).trans moves₁
  generalize { w with prefixPool := pool } = w₁ at *
  dsimp only at ok
  split at ok
  next none =>
    rw [none] at tracked₁ moves₁
    obtain ⟨tracked', moves'⟩ := admitWarms_tracked law tracked₁ ok
    exact ⟨tracked', moves₁.trans moves'⟩
  next some =>
    obtain ⟨w₂, cold, warm⟩ := bind_ok ok
    obtain ⟨tracked₂, moves₂⟩ := admitCold_tracked law tracked₁ cold
    obtain ⟨tracked', moves'⟩ := admitWarms_tracked law tracked₂ warm
    exact ⟨tracked', moves₁.trans (moves₂.trans moves')⟩

omit [Slot V] in
/-- Units that are queued hold requests of the hand. -/
theorem queued_tracked {ids : List Nat} {units : List (PendingPrefill Nat V)} (tracked : Tracked P (ids ++ hand) w)
    (names : units.flatMap (·.reqs) = ids) (sizes : ∀ p ∈ units, p.cache.batch = p.reqs.length) :
    Tracked P hand { w with pending := w.pending ++ units } ∧
      Moves Q (ids ++ hand) hand w { w with pending := w.pending ++ units } := by
  have queue : pendingReqs { w with pending := w.pending ++ units } = w.pendingReqs ++ ids := by
    rw [pendingReqs, List.flatMap_append, names]
    rfl
  have count : ∀ r, (live hand { w with pending := w.pending ++ units }).count r = (live (ids ++ hand) w).count r := by
    intro r
    simp only [live, queue, List.count_append]
    omega
  obtain ⟨rows, aligned, old⟩ := tracked.rows
  refine ⟨⟨fun r => (count r).trans_le (tracked.once r), ?_, ⟨rows, aligned.congr rfl rfl rfl rfl rfl rfl, old⟩,
    tracked.cache, ?_⟩, .of_count count (fun _ member => member) fun _ _ => rfl⟩
  · intro r member
    rw [queue] at member
    exact tracked.fresh r (by simp only [List.mem_append] at member ⊢; tauto)
  · intro p member
    exact (List.mem_append.mp member).elim (tracked.units p) (sizes p)

theorem warm_unit {prompt : List Int} {blocks : List (KVBlock V)} {len : Nat} {p : PendingPrefill Nat V}
    (ok : PendingPrefill.warm env.model env.kStep r prompt blocks len env.kvQuant = .ok p) :
    p.reqs = [r] ∧ p.cache.batch = 1 := by
  unfold PendingPrefill.warm at ok
  obtain ⟨cache, seeded, ok⟩ := bind_ok ok
  obtain rfl := pure_ok ok
  exact ⟨rfl, fromPrefix_batch seeded⟩

theorem warm_units {warm : List (Nat × Match V)} {units : List (PendingPrefill Nat V)}
    (ok : warm.mapM (fun p => PendingPrefill.warm env.model env.kStep p.1 (w.out p.1).promptIds p.2.blocks p.2.tokens
      env.kvQuant) = .ok units) :
    units.flatMap (·.reqs) = warm.map Prod.fst ∧ ∀ p ∈ units, p.cache.batch = p.reqs.length := by
  induction warm generalizing units with
  | nil =>
    obtain rfl := pure_ok ok
    exact ⟨rfl, nofun⟩
  | cons p warm ih =>
    rw [List.mapM_cons] at ok
    obtain ⟨u, head, ok⟩ := bind_ok ok
    obtain ⟨us, tail, ok⟩ := bind_ok ok
    obtain rfl := pure_ok ok
    obtain ⟨reqs, batch⟩ := warm_unit head
    obtain ⟨names, sizes⟩ := ih tail
    refine ⟨by rw [List.flatMap_cons, reqs, names]; rfl, ?_⟩
    rw [List.forall_mem_cons, reqs]
    exact ⟨batch, sizes⟩

variable (env) in
omit [Slot V] in
theorem cold_unit (cold : List Nat) (prompts : List (List Int)) (same : prompts.length = cold.length) :
    (PendingPrefill.cold env.model env.kStep cold prompts env.kvQuant).reqs = cold ∧
      (PendingPrefill.cold env.model env.kStep cold prompts env.kvQuant).cache.batch = cold.length := by
  refine ⟨rfl, ?_⟩
  simp [PendingPrefill.cold, BatchKVCache.new, leftPad, same]

theorem enqueueAdmissions_tracked {ids : List Nat} (tracked : Tracked P (ids ++ hand) w)
    (ok : w.enqueueAdmissions env ids = .ok w') : Tracked P hand w' ∧ Moves Q (ids ++ hand) hand w w' := by
  unfold enqueueAdmissions at ok
  rcases ran : splitPrefix env w ids with ⟨split, w₁⟩
  rw [ran] at ok
  obtain ⟨⟨pool, rfl⟩, order⟩ := splitPrefix_spec ran
  have order : (ids ++ hand).Perm ((split.warm.map Prod.fst ++ split.cold) ++ hand) := order.symm.append_right hand
  obtain ⟨tracked₁, moves₁⟩ := pool_tracked (Q := Q) (tracked.perm order) pool
  have moves₁ := (Moves.of_perm order).trans moves₁
  dsimp only at ok
  obtain ⟨units, built, ok⟩ := bind_ok ok
  obtain ⟨names, sizes⟩ := warm_units built
  split at ok
  next none =>
    obtain rfl := pure_ok ok
    obtain ⟨tracked', moves'⟩ := queued_tracked (Q := Q) tracked₁ (by rw [names, none, List.append_nil]) sizes
    exact ⟨tracked', moves₁.trans moves'⟩
  next some =>
    obtain rfl := pure_ok ok
    obtain ⟨reqs, batch⟩ := cold_unit env split.cold (split.cold.map fun r => (w.out r).promptIds) (by simp)
    have all : ∀ p ∈ units ++ [PendingPrefill.cold env.model env.kStep split.cold
        (split.cold.map fun r => (w.out r).promptIds) env.kvQuant], p.cache.batch = p.reqs.length := by
      intro p member
      rcases List.mem_append.mp member with member | member
      · exact sizes p member
      · rw [List.mem_singleton.mp member, reqs]
        exact batch
    obtain ⟨tracked', moves'⟩ := queued_tracked (Q := Q) tracked₁ (by simp [names, reqs]) all
    rw [← List.append_assoc] at tracked' moves'
    exact ⟨tracked', moves₁.trans moves'⟩

theorem admitIncoming_tracked (law : RowLaw env P Q) {ids : List Nat} (tracked : Tracked P ids w)
    (ok : w.admitIncoming env flags ids = .ok w') : Tracked P [] w' ∧ Moves Q ids [] w w' := by
  unfold admitIncoming at ok
  rcases ran : dispatch env flags w ids with ⟨w₁, gen⟩
  rw [ran] at ok
  rw [← List.append_nil ids] at tracked
  obtain ⟨tracked₁, moves₁⟩ := dispatch_tracked law tracked ran
  rw [List.append_nil] at moves₁
  dsimp only at ok
  split at ok
  next none =>
    obtain rfl := Except.ok.inj ok
    rw [none] at tracked₁ moves₁
    exact ⟨tracked₁, moves₁⟩
  split at ok
  · obtain ⟨tracked', moves'⟩ := enqueueAdmissions_tracked (Q := Q) tracked₁ ok
    exact ⟨tracked', moves₁.trans moves'⟩
  · obtain ⟨tracked', moves'⟩ := admit_tracked law tracked₁ ok
    exact ⟨tracked', moves₁.trans moves'⟩

end

end Worker

end Mlxforge
