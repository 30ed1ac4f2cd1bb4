import Mlxforge.Runtime.ServedProgress

/-!
What a step of the worker does to the requests in the batch and to the work that is queued: rows stay as they are while
others join them, and each chunk takes columns off the queue.
-/

namespace Mlxforge

variable {V H Q L K G I : Type}

namespace Worker

variable {env : WorkerEnv V L K G I} {w w' w'' : Worker V K G} {flags ids hand : List Nat} {last : List L}

/-! ### The pace of a row -/

/-- A row is open and has counted its tokens, and there is no reason to end it before it is finished. -/
structure Paced (o : Output G) (row : Row K) : Prop where
  opened : o.closes = []
  produced : row.produced = o.tokens.length
  going : row.finished = false → o.finishReason = ""

theorem emitted_paced {req : Request} {o : Output G} (row : Row K) (s : Sampled) (opened : o.closes = [])
    (produced : row.produced = o.tokens.length) (going : o.finishReason = "") :
    Paced (Output.consume req o row.produced s).1 { row with
        feed := s.id
        history := row.history ++ [s.id]
        produced := (Output.consume req o row.produced s).2.1
        finished := if (Output.consume req o row.produced s).2.2 then true else row.finished } ∧
      ((Output.consume req o row.produced s).1.finishReason = "" →
        (Output.consume req o row.produced s).1.tokens.length = o.tokens.length + 1 ∧
          o.tokens.length + 1 < req.maxTokens.toNat) := by
  have spec := Output.consume_spec req row.produced s opened
  generalize Output.consume req o row.produced s = c at *
  obtain ⟨o', n', done⟩ := c
  obtain ⟨⟨-, -, closes⟩, ⟨-, tokens, reason, result⟩ | ⟨-, -, tokens, reason, result⟩ | ⟨-, room, tokens, reason, result⟩⟩ := spec
  all_goals
    obtain ⟨rfl, rfl⟩ := Prod.mk.inj result
    simp only at tokens reason closes
  · refine ⟨⟨closes, by rw [tokens, produced], fun unfinished => by cases unfinished⟩, fun none => ?_⟩
    rw [reason] at none
    simp at none
  · refine ⟨⟨closes, by simp [tokens, produced], fun unfinished => by cases unfinished⟩, fun none => ?_⟩
    rw [reason] at none
    simp at none
  · refine ⟨⟨closes, by simp [tokens, produced], fun _ => reason.trans going⟩, fun _ => ⟨by simp [tokens], ?_⟩⟩
    rw [← produced]
    omega

theorem paced_law (env : WorkerEnv V L K G I) : RowLaw (K := K) (G := G) env Paced fun _ _ => True where
  first := by
    intro flags before r l row after untouched registered
    obtain ⟨s, -, ran⟩ := registered
    have opened : (advanceGrammar env (compiled env r before) s.id).closes = [] := by
      simp [advanceGrammar, untouched.closes]
    have reason : (advanceGrammar env (compiled env r before) s.id).finishReason = "" := by
      simp only [advanceGrammar, compiled]
      split <;> exact untouched.finishReason
    have tokens : (advanceGrammar env (compiled env r before) s.id).tokens = [] := by
      simp [advanceGrammar, untouched.tokens]
    simp only [firstToken] at ran
    split at ran
    · obtain ⟨rfl, rfl⟩ := Prod.mk.inj ran
      exact ⟨opened, by simp [keyUsed, freshRow, tokens], fun unfinished => by cases unfinished⟩
    · obtain ⟨rfl, rfl⟩ := Prod.mk.inj ran
      exact (emitted_paced (keyUsed env (freshRow env before r)) s opened (by simp [keyUsed, freshRow, tokens]) reason).1
  next := by
    intro flags before row l row' after paced decoded
    obtain ⟨s, -, ran⟩ := decoded
    simp only [nextToken] at ran
    split at ran
    · obtain ⟨rfl, rfl⟩ := Prod.mk.inj ran
      exact ⟨paced.opened, paced.produced, paced.going⟩
    next unfinished =>
      split at ran
      · obtain ⟨rfl, rfl⟩ := Prod.mk.inj ran
        exact ⟨paced.opened, paced.produced, fun unfinished => by cases unfinished⟩
      · obtain ⟨rfl, rfl⟩ := Prod.mk.inj ran
        have going : row.finished = false := by simpa [keyUsed] using unfinished
        have opened : (advanceGrammar env before s.id).closes = [] := paced.opened
        exact (emitted_paced (keyUsed env row) s opened paced.produced (paced.going going)).1
  evicted := fun _ _ _ => trivial
  quit := fun _ _ _ => trivial

/-- A decode step leaves an ended row alone; a row that goes on afterwards has one token more, and room for the next. -/
theorem Decoded.paced {before after : Output G} {row row' : Row K} {l : L} (decoded : Decoded env flags before row l row' after)
    (paced : Paced before row) (marked : row.finished = true → before.finishReason ≠ "") :
    (before.finishReason ≠ "" → after = before) ∧
      (before.finishReason = "" → after.finishReason = "" → after.tokens.length = before.tokens.length + 1 ∧
        before.tokens.length + 1 < (env.request row.req).maxTokens.toNat) := by
  obtain ⟨s, -, ran⟩ := decoded
  simp only [nextToken] at ran
  split at ran
  next finished =>
    obtain ⟨rfl, rfl⟩ := Prod.mk.inj ran
    exact ⟨fun _ => rfl, fun none => absurd none (marked finished)⟩
  next unfinished =>
    have going : before.finishReason = "" := paced.going (by simpa [keyUsed] using unfinished)
    refine ⟨fun some => absurd going some, fun _ none => ?_⟩
    split at ran
    · obtain ⟨rfl, rfl⟩ := Prod.mk.inj ran
      simp at none
    · obtain ⟨rfl, rfl⟩ := Prod.mk.inj ran
      have opened : (advanceGrammar env before s.id).closes = [] := paced.opened
      exact (emitted_paced (keyUsed env row) s opened paced.produced going).2 none

/-! ### Admissions beside the batch -/

/-- The requests of the batch are still in it, and as they were. -/
structure Grows (w w' : Worker V K G) : Prop where
  reqs : w.reqs ⊆ w'.reqs
  outs : ∀ r ∈ w.reqs, w'.out r = w.out r

theorem Grows.refl (w : Worker V K G) : Grows w w := ⟨fun _ member => member, fun _ _ => rfl⟩

theorem Grows.trans (first : Grows w w') (second : Grows w' w'') : Grows w w'' :=
  ⟨fun _ member => second.reqs (first.reqs member),
    fun r member => (second.outs r (first.reqs member)).trans (first.outs r member)⟩

variable [Slot V]

theorem joined_grows {fresh : BatchKVCache V} {q : List (PendingPrefill Nat V)} {w₁ : Worker V K G}
    (tracked : Counted (ids ++ hand) w) (adopted : { w with pending := q }.adopt fresh ids = .ok w₁)
    (registered : w₁.registerRows env flags ids last = .ok w') : Grows w w' := by
  obtain ⟨rows, aligned, -⟩ := tracked.rows
  obtain ⟨c, o, rfl, -⟩ := adopt_spec adopted
  have aligned₁ : Worker.Aligned { w with pending := q, cache := some c, owners := o } rows :=
    aligned.congr rfl rfl rfl rfl rfl rfl
  have distinct := Tracked.distinct tracked aligned
  obtain ⟨new, aligned', names, -, others, -⟩ := registerRows_spec aligned₁ distinct registered
  refine ⟨?_, fun r member => others r fun listed => ?_⟩
  · rw [aligned'.reqs, List.map_append, aligned.reqs]
    exact List.subset_append_left _ _
  · rw [aligned.reqs] at member
    exact (List.nodup_append.mp distinct).2.2 r member r listed rfl

theorem admitWarm_grows {r : Nat} {found : Match V} (tracked : Counted (r :: hand) w)
    (ok : w.admitWarm env flags r found = .ok w') : Grows w w' := by
  unfold admitWarm at ok
  obtain ⟨pr, -, ok⟩ := bind_ok ok
  obtain ⟨w₁, adopted, ok⟩ := bind_ok ok
  exact joined_grows (show Counted ([r] ++ hand) w from tracked) adopted ok

theorem admitCold_grows (tracked : Counted (ids ++ hand) w) (ok : w.admitCold env flags ids = .ok w') : Grows w w' := by
  unfold admitCold at ok
  obtain ⟨pr, -, ok⟩ := bind_ok ok
  obtain ⟨w₁, adopted, ok⟩ := bind_ok ok
  exact joined_grows tracked adopted ok

theorem admitWarms_grows {warm : List (Nat × Match V)} (tracked : Counted (warm.map Prod.fst ++ hand) w)
    (ok : warm.foldlM (fun w p => w.admitWarm env flags p.1 p.2) w = .ok w') : Grows w w' := by
  induction warm generalizing w with
  | nil =>
    obtain rfl := pure_ok ok
    exact .refl w
  | cons p warm ih =>
    rw [List.foldlM_cons] at ok
    obtain ⟨w₁, admitted, ok⟩ := bind_ok ok
    exact (admitWarm_grows tracked admitted).trans (ih (admitWarm_tracked EngineState.anyLaw tracked admitted).1 ok)

theorem admitGroup_grows (tracked : Counted ids w) (ok : w.admitGroup env flags ids = .ok w') : Grows w w' := by
  unfold admitGroup at ok
  rcases ran : splitPrefix env w ids with ⟨split, w₁⟩
  rw [ran] at ok
  obtain ⟨⟨pool, rfl⟩, order⟩ := splitPrefix_spec ran
  have order : ids.Perm (split.cold ++ split.warm.map Prod.fst) := order.symm.trans List.perm_append_comm
  have tracked₁ := (pool_tracked (Q := fun _ _ => True) (tracked.perm order) pool).1
  have pooled : Grows w { w with prefixPool := pool } := ⟨fun _ member => member, fun _ _ => rfl⟩
  refine pooled.trans ?_
  dsimp only at ok
  split at ok
  next none =>
    rw [none, List.nil_append, ← List.append_nil (split.warm.map Prod.fst)] at tracked₁
    exact admitWarms_grows tracked₁ ok
  next some =>
    obtain ⟨w₂, cold, warm⟩ := bind_ok ok
    have tracked₂ := (admitCold_tracked EngineState.anyLaw tracked₁ cold).1
    rw [← List.append_nil (split.warm.map Prod.fst)] at tracked₂
    exact (admitCold_grows tracked₁ cold).trans (admitWarms_grows tracked₂ warm)

theorem enqueueAdmissions_grows (ok : w.enqueueAdmissions env ids = .ok w') : Grows w w' := by
  unfold enqueueAdmissions at ok
  rcases ran : splitPrefix env w ids with ⟨split, w₁⟩
  rw [ran] at ok
  obtain ⟨⟨pool, rfl⟩, -⟩ := splitPrefix_spec ran
  dsimp only at ok
  obtain ⟨warm, -, ok⟩ := bind_ok ok
  split at ok
  · obtain rfl := pure_ok ok
    exact ⟨fun _ member => member, fun _ _ => rfl⟩
  · obtain rfl := pure_ok ok
    exact ⟨fun _ member => member, fun _ _ => rfl⟩

/-- A text model deals with none of its dispatches in the batch. -/
theorem dispatch_grows (text : env.visionModel = false) (apart : ∀ r ∈ ids, r ∉ w.reqs) :
    Grows w (dispatch env flags w ids).1 ∧ (dispatch env flags w ids).1.reqs = w.reqs ∧
      (dispatch env flags w ids).1.pending = w.pending ∧ (dispatch env flags w ids).2.length ≤ ids.length := by
  induction ids generalizing w with
  | nil => exact ⟨.refl w, rfl, rfl, le_rfl⟩
  | cons r rest ih =>
    obtain ⟨away, apart⟩ := List.forall_mem_cons.mp apart
    have other : ∀ (o : Output G), ∀ r' ∈ w.reqs, Function.update w.out r o r' = w.out r' := by
      intro o r' member
      refine Function.update_of_ne ?_ _ _
      rintro rfl
      exact away member
    unfold dispatch
    split
    · have embedded : Grows w (w.handleEmbedding env r) := by
        unfold handleEmbedding
        exact ⟨fun _ member => member, other _⟩
      obtain ⟨grows, reqs, pending, count⟩ := ih (w := w.handleEmbedding env r) apart
      exact ⟨embedded.trans grows, reqs, pending, count.trans (Nat.le_succ _)⟩
    split
    · have failed : w.admitMultimodal env flags r = w.fail r .prepare := by
        rw [admitMultimodal, multimodalPrompt, text]
        rfl
      have rejected : Grows w (w.fail r .prepare) := by
        unfold fail
        exact ⟨fun _ member => member, other _⟩
      rw [failed]
      obtain ⟨grows, reqs, pending, count⟩ := ih (w := w.fail r .prepare) apart
      exact ⟨rejected.trans grows, reqs, pending, count.trans (Nat.le_succ _)⟩
    · obtain ⟨grows, reqs, pending, count⟩ := ih (w := w) apart
      exact ⟨grows, reqs, pending, Nat.succ_le_succ count⟩

omit [Slot V] in
theorem joining_apart (tracked : Counted ids w) : ∀ r ∈ ids, r ∉ w.reqs := by
  rw [← List.append_nil ids] at tracked
  have distinct := (Tracked.joining tracked).1
  exact fun r member among => (List.nodup_append.mp distinct).2.2 r among r member rfl

theorem admitIncoming_grows (text : env.visionModel = false) (tracked : Counted ids w)
    (ok : w.admitIncoming env flags ids = .ok w') : Grows w w' := by
  have apart := joining_apart tracked
  have grows : Grows w (dispatch env flags w ids).1 := (dispatch_grows text apart).1
  unfold admitIncoming at ok
  rcases ran : dispatch env flags w ids with ⟨w₁, gen⟩
  rw [ran] at ok grows
  rw [← List.append_nil ids] at tracked
  have tracked₁ := (dispatch_tracked EngineState.anyLaw tracked ran).1
  rw [List.append_nil] at tracked₁
  dsimp only at ok grows
  split at ok
  · obtain rfl := Except.ok.inj ok
    exact grows
  split at ok
  · exact grows.trans (enqueueAdmissions_grows ok)
  · exact grows.trans (admitGroup_grows tracked₁ ok)

theorem advanceChunkedPrefill_grows (tracked : Counted [] w) (ok : w.advanceChunkedPrefill env flags = .ok w') :
    Grows w w' := by
  unfold advanceChunkedPrefill at ok
  split at ok
  · obtain rfl := Except.ok.inj ok
    exact .refl w
  next p rest queue =>
    obtain ⟨⟨p', last⟩, advanced, ok⟩ := bind_ok ok
    dsimp only at ok
    split at ok
    · obtain rfl := pure_ok ok
      exact ⟨fun _ member => member, fun _ _ => rfl⟩
    · obtain ⟨w₁, adopted, ok⟩ := bind_ok ok
      obtain ⟨w₂, registered, ok⟩ := bind_ok ok
      obtain rfl := pure_ok ok
      -- the unit's requests are counted as taken from the queue
      have stepped : Counted (p'.reqs ++ []) { w with pending := rest } := by
        have same : p'.reqs = p.reqs := (advance_unit advanced).1
        refine ⟨fun r => ?_, fun r member => ?_, ?_, tracked.cache, fun u member => tracked.units u (by rw [queue]; simp [member])⟩
        · have once := tracked.once r
          simp only [live, pendingReqs, queue, List.flatMap_cons, ← same, List.count_append, List.nil_append] at once ⊢
          simp only [List.count_nil]
          omega
        · refine tracked.fresh r ?_
          simp only [pendingReqs, queue, List.flatMap_cons, ← same, List.append_nil, List.nil_append] at member ⊢
          exact member
        · obtain ⟨rows, aligned, old⟩ := tracked.rows
          exact ⟨rows, aligned.congr rfl rfl rfl rfl rfl rfl, old⟩
      have grows := joined_grows (w := { w with pending := rest }) (q := p' :: rest) stepped adopted registered
      exact ⟨grows.reqs, grows.outs⟩

/-! ### The columns in the queue -/

/-- The columns of prompts that the queued units have not fed yet. -/
def columns (w : Worker V K G) : Nat := (w.pending.map fun p => p.nTotal - p.pos).sum

omit [Slot V] in
theorem maxLength_le {prompts : List (List Int)} {ctx : Nat} (short : ∀ p ∈ prompts, p.length ≤ ctx) :
    maxLength prompts ≤ ctx := by
  have grows : ∀ (xs : List (List Int)) (n : Nat), n ≤ ctx → (∀ p ∈ xs, p.length ≤ ctx) →
      xs.foldl (fun p ids => max p ids.length) n ≤ ctx := by
    intro xs
    induction xs with
    | nil => exact fun n le _ => le
    | cons x xs ih =>
      intro n le short
      obtain ⟨first, rest⟩ := List.forall_mem_cons.mp short
      exact ih _ (max_le le first) rest
  exact grows prompts 0 (Nat.zero_le _) short

/-- The units of an admission stand behind those in the queue, and have no more columns than its prompts may have. -/
theorem enqueueAdmissions_columns {ctx : Nat} (short : ∀ r ∈ ids, (w.out r).promptIds.length ≤ ctx)
    (ok : w.enqueueAdmissions env ids = .ok w') :
    w.pending <+: w'.pending ∧ w'.columns ≤ w.columns + ids.length * ctx := by
  unfold enqueueAdmissions at ok
  rcases ran : splitPrefix env w ids with ⟨split, w₁⟩
  rw [ran] at ok
  obtain ⟨⟨pool, rfl⟩, order⟩ := splitPrefix_spec ran
  dsimp only at ok
  obtain ⟨warm, each, ok⟩ := bind_ok ok
  have count : split.warm.length + split.cold.length = ids.length := by
    rw [← order.length_eq, List.length_append, List.length_map]
  have warmed : (warm.map fun p => p.nTotal - p.pos).sum ≤ split.warm.length * ctx := by
    have count : (warm.map fun p => p.nTotal - p.pos).length = split.warm.length := by rw [List.length_map, mapM_length each]
    rw [← count, ← smul_eq_mul]
    refine List.sum_le_card_nsmul _ _ fun n member => ?_
    obtain ⟨p, among, rfl⟩ := List.mem_map.mp member
    obtain ⟨⟨r, found⟩, listed, built⟩ := mapM_source each among
    unfold PendingPrefill.warm at built
    obtain ⟨cache, -, built⟩ := bind_ok built
    obtain rfl := pure_ok built
    have own : r ∈ ids := order.mem_iff.mp (List.mem_append_left _ (List.mem_map_of_mem listed))
    have := short r own
    simp only [suffixTokens]
    omega
  split at ok
  next none =>
    obtain rfl := pure_ok ok
    refine ⟨List.prefix_append _ _, ?_⟩
    simp only [columns, List.map_append, List.sum_append]
    rw [none, List.length_nil, Nat.add_zero] at count
    rw [count] at warmed
    omega
  next some =>
    obtain rfl := pure_ok ok
    refine ⟨(List.prefix_append _ _).trans (List.prefix_append _ _), ?_⟩
    have cold : maxLength (split.cold.map fun r => (w.out r).promptIds) ≤ ctx := maxLength_le fun p member => by
      obtain ⟨r, among, rfl⟩ := List.mem_map.mp member
      exact short r (order.mem_iff.mp (List.mem_append_right _ among))
    have one : ctx ≤ split.cold.length * ctx := Nat.le_mul_of_pos_left _ (List.length_pos_iff.mpr some)
    simp only [columns, List.map_append, List.sum_append, List.map_cons, List.map_nil, List.sum_cons, List.sum_nil,
      PendingPrefill.cold, leftPad]
    rw [← count, Nat.add_mul]
    omega

theorem admitIncoming_columns {ctx : Nat} (text : env.visionModel = false) (tracked : Counted ids w)
    (supplied : w.Supplied env) (short : ∀ r, (env.request r).promptIds.length ≤ ctx)
    (ok : w.admitIncoming env flags ids = .ok w') :
    w.pending <+: w'.pending ∧ w'.columns ≤ w.columns + ids.length * ctx := by
  have apart := joining_apart tracked
  obtain ⟨-, -, pending, fewer⟩ := @dispatch_grows _ _ _ _ _ env w flags ids _ text apart
  obtain ⟨kept, among⟩ := @dispatch_spec _ _ _ _ _ env w flags _ ids
  unfold admitIncoming at ok
  rcases ran : dispatch env flags w ids with ⟨w₁, gen⟩
  rw [ran] at ok pending fewer kept among
  dsimp only at ok pending fewer kept among
  have same : w₁.columns = w.columns := by rw [columns, pending, columns]
  split at ok
  · obtain rfl := Except.ok.inj ok
    exact ⟨by rw [pending], by omega⟩
  split at ok
  · have supplied₁ := supplied.keeps kept
    have shorter : ∀ r ∈ gen, (w₁.out r).promptIds.length ≤ ctx := fun r member => by
      rw [supplied₁.prompts r (among r member).2.2]
      exact short r
    obtain ⟨before, added⟩ := enqueueAdmissions_columns shorter ok
    have := Nat.mul_le_mul_right ctx fewer
    exact ⟨pending ▸ before, by omega⟩
  · have admitted := (keeps_admitGroup ok).pending
    exact ⟨by rw [admitted, pending], by rw [columns, admitted, pending, ← columns]; omega⟩

/-- A turn takes columns off the queue. -/
theorem advanceChunkedPrefill_columns (supplied : w.Supplied env) (ok : w.advanceChunkedPrefill env flags = .ok w') :
    (w.pending = [] → w' = w) ∧ (w.pending ≠ [] → w'.columns + 1 ≤ w.columns) := by
  unfold advanceChunkedPrefill at ok
  split at ok
  next none =>
    obtain rfl := Except.ok.inj ok
    exact ⟨fun _ => rfl, fun some => absurd none some⟩
  next p rest queue =>
    refine ⟨fun none => absurd (queue.symm.trans none) (List.cons_ne_nil _ _), fun _ => ?_⟩
    have chunked := supplied.chunked (by rw [queue]; exact List.cons_ne_nil _ _)
    have ahead := (supplied.units p (by rw [queue]; simp)).ahead
    obtain ⟨⟨p', last⟩, advanced, ok⟩ := bind_ok ok
    have fed : p'.nTotal = p.nTotal ∧ p.pos < p'.pos := by
      unfold PendingPrefill.advance at advanced
      obtain ⟨⟨logits, cache⟩, -, advanced⟩ := bind_ok advanced
      obtain ⟨rfl, -⟩ := Prod.mk.inj (pure_ok advanced)
      exact ⟨rfl, by dsimp only; omega⟩
    dsimp only at ok
    split at ok
    · obtain rfl := pure_ok ok
      simp only [columns, queue, List.map_cons, List.sum_cons]
      omega
    · obtain ⟨w₁, adopted, ok⟩ := bind_ok ok
      obtain ⟨w₂, registered, ok⟩ := bind_ok ok
      obtain rfl := pure_ok ok
      simp only [columns, queue, List.map_cons, List.sum_cons]
      omega

end Worker

end Mlxforge
