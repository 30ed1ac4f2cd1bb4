import Mlxforge.Runtime.Conservation
import Mlxforge.Runtime.PrefillAgreement
import Mlxforge.Server.FrontEnds

/-!
What a prefill has to work on: every unit has columns, every row of it a token of its own, and every chunk a column, as
long as no request is accepted with an empty prompt.
-/

namespace Mlxforge

open Transition (Reachable)

variable {V L K G I : Type}

/-! ### Left-padded rows -/

/-- The rows stand at the right edge of the matrix, each with at least one token. -/
structure Filled (tokens : KvArray Int) (rows : List (List Int)) : Prop where
  columns : 0 < tokens.cap
  real : ∀ b row, rows[b]? = some row → row ≠ [] ∧ row.length ≤ tokens.cap ∧
    ∀ j x, row[j]? = some x → tokens.get b (tokens.cap - row.length + j) = x

variable {tokens : KvArray Int} {rows prompts : List (List Int)}

/-- The last column of a row, whose logits are sampled, is the row's last token. -/
theorem Filled.last (filled : Filled tokens rows) {b : Nat} {row : List Int} (at_b : rows[b]? = some row) :
    some (tokens.get b (tokens.cap - 1)) = row.getLast? := by
  obtain ⟨some_row, fits, values⟩ := filled.real b row at_b
  have positive := List.length_pos_iff.mpr some_row
  have final : row[row.length - 1]? = some (row.getLast some_row) := by
    rw [← List.getLast?_eq_getElem?, List.getLast?_eq_some_getLast some_row]
  rw [List.getLast?_eq_some_getLast some_row, ← values _ _ final]
  congr 2
  omega

theorem leftPad_get (padId : Int) {b : Nat} {row : List Int} (at_b : prompts[b]? = some row) {j : Nat} {x : Int}
    (at_j : row[j]? = some x) : (leftPad prompts padId).2.get b (maxLength prompts - row.length + j) = x := by
  have read : prompts.getD b [] = row := by rw [List.getD_eq_getElem?_getD, at_b, Option.getD_some]
  simp only [leftPad, read]
  rw [if_neg (by omega), Nat.add_sub_cancel_left, List.getD_eq_getElem?_getD, at_j, Option.getD_some]

/-- A batch of prompts has work to do exactly if none of them is empty. -/
theorem filled_leftPad (some : prompts ≠ []) : Filled (leftPad prompts).2 prompts ↔ ∀ ids ∈ prompts, ids ≠ [] := by
  constructor
  · intro filled ids member
    obtain ⟨b, at_b⟩ := List.mem_iff_getElem?.mp member
    exact (filled.real b ids at_b).1
  · intro worded
    refine ⟨?_, fun b row at_b => ?_⟩
    · obtain ⟨ids, member⟩ := List.exists_mem_of_ne_nil prompts some
      exact (List.length_pos_iff.mpr (worded ids member)).trans_le (le_maxLength member)
    · have member := List.mem_of_getElem? at_b
      exact ⟨worded row member, le_maxLength member, fun j x at_j => leftPad_get 0 at_b at_j⟩

theorem filled_suffix {prompt : List Int} {cachedLen : Nat} (short : cachedLen < prompt.length) :
    Filled (suffixTokens prompt cachedLen) [prompt.drop cachedLen] := by
  refine ⟨Nat.sub_pos_of_lt short, fun b row at_b => ?_⟩
  have zero : b = 0 := by
    have inside := (List.getElem?_eq_some_iff.mp at_b).1
    simpa using inside
  subst zero
  obtain rfl : prompt.drop cachedLen = row := by simpa using at_b
  refine ⟨by rw [Ne, List.drop_eq_nil_iff]; omega, by simp [suffixTokens], fun j x at_j => ?_⟩
  rw [List.getElem?_drop] at at_j
  simp [suffixTokens, List.getD_eq_getElem?_getD, at_j]

/-! ### Chunks -/

theorem sliceSeq_cap {a : KvArray V} {start n : Nat} (fits : start + n ≤ a.cap) :
    (a.sliceSeq start (start + n : Nat)).cap = n := by
  simp only [KvArray.sliceSeq, clampIndex_natCast, Nat.min_eq_left fits,
    Nat.min_eq_left (show start ≤ a.cap by omega), Nat.add_sub_cancel_left]

/-- The chunks that the loop of a prefill forwards, from column `c` on. -/
def chunks (stepSize : Nat) (tokens : KvArray Int) : (fuel c : Nat) → List (KvArray Int)
  | 0, _ => []
  | fuel + 1, c =>
    if c < tokens.cap then
      tokens.sliceSeq c (c + min stepSize (tokens.cap - c) : Nat) :: chunks stepSize tokens fuel (c + stepSize)
    else []

/-- The loop forwards the chunks one after the other and keeps the last one's logits. -/
theorem chunkLoop_eq (m : LoadedModel V L) (stepSize : Nat) (tokens : KvArray Int) (fuel c : Nat) (logits : KvArray L)
    (cache : BatchKVCache V) : chunkLoop m stepSize tokens fuel c logits cache =
      (chunks stepSize tokens fuel c).foldlM (fun state chunk => m.forward chunk state.2) (logits, cache) := by
  induction fuel generalizing c logits cache with
  | zero => rfl
  | succ fuel ih =>
    unfold chunkLoop chunks
    by_cases inside : c < tokens.cap
    · rw [if_pos inside, if_pos inside, List.foldlM_cons]
      refine bind_congr fun state => ?_
      exact ih (c + stepSize) state.1 state.2
    · rw [if_neg inside, if_neg inside]
      rfl

theorem chunks_columns {stepSize fuel c : Nat} (positive : 0 < stepSize) {chunk : KvArray Int}
    (member : chunk ∈ chunks stepSize tokens fuel c) : 0 < chunk.cap := by
  induction fuel generalizing c with
  | zero => cases member
  | succ fuel ih =>
    unfold chunks at member
    split at member
    next inside =>
      rcases List.mem_cons.mp member with rfl | later
      · rw [sliceSeq_cap (by omega)]
        omega
      · exact ih later
    next => cases member

/-- A matrix with a column is forwarded. -/
theorem chunks_ne_nil {stepSize : Nat} (columns : 0 < tokens.cap) : chunks stepSize tokens tokens.cap 0 ≠ [] := by
  obtain ⟨fuel, size⟩ := Nat.exists_eq_succ_of_ne_zero columns.ne'
  rw [size]
  unfold chunks
  rw [if_pos columns]
  exact List.cons_ne_nil _ _

/-- The logits have a position for every column of the chunk. -/
def LoadedModel.KeepsColumns (m : LoadedModel V L) : Prop :=
  ∀ {tokens cache logits cache'}, m.forward tokens cache = .ok (logits, cache') → logits.cap = tokens.cap

namespace DecoderModel

variable {H Q : Type} [Slot V] {m : DecoderModel V H Q L}

theorem forwardLayers_cap {offset leftPadding : List Int} {prevIdx : Int} {n layer : Nat} {h h' : KvArray H}
    {c c' : BatchKVCache V} (ok : m.forwardLayers offset prevIdx leftPadding n layer h c = .ok (h', c')) :
    h'.cap = h.cap := by
  induction n generalizing layer h c with
  | zero =>
    obtain ⟨rfl, -⟩ := Prod.mk.inj (Except.ok.inj ok)
    rfl
  | succ n ih =>
    unfold forwardLayers at ok
    obtain ⟨⟨a, cache⟩, -, ok⟩ := bind_ok ok
    have rest := ih ok
    exact rest

theorem loaded_keepsColumns : m.loaded.KeepsColumns := by
  intro tokens cache logits cache' ok
  obtain ⟨⟨h, stepped⟩, layers, ok⟩ := bind_ok ok
  obtain ⟨rfl, -⟩ := Prod.mk.inj (pure_ok ok)
  exact forwardLayers_cap layers

end DecoderModel

namespace PendingPrefill

/-- The chunk that the unit's next turn forwards. -/
def chunk {R : Type} (prefillChunk : Nat) (p : PendingPrefill R V) : KvArray Int :=
  p.tokens.sliceSeq p.pos (p.pos + min prefillChunk (p.nTotal - p.pos) : Nat)

/-- Every row of the unit has a token, and columns are left to be forwarded. -/
structure HasWork (prompt : Nat → List Int) (p : PendingPrefill Nat V) : Prop where
  total : p.nTotal = p.tokens.cap
  ahead : p.pos < p.nTotal
  filled : Filled p.tokens (p.reqs.map fun r => (prompt r).drop p.reusedTokens)

variable {prompt : Nat → List Int} {p p' : PendingPrefill Nat V} {m : LoadedModel V L} {prefillChunk kStep : Nat}
  {last : Option (List L)}

theorem HasWork.chunk (work : p.HasWork prompt) (positive : 0 < prefillChunk) : 0 < (p.chunk prefillChunk).cap := by
  have ahead := work.ahead
  have total := work.total
  rw [PendingPrefill.chunk, sliceSeq_cap (by omega)]
  omega

/-- A unit that is not at its end has work left. -/
theorem HasWork.advance (work : p.HasWork prompt) (ok : p.advance m prefillChunk = .ok (p', none)) : p'.HasWork prompt := by
  unfold PendingPrefill.advance at ok
  obtain ⟨⟨logits, cache⟩, -, ok⟩ := bind_ok ok
  obtain ⟨rfl, rest⟩ := Prod.mk.inj (pure_ok ok)
  dsimp only at rest
  split at rest
  next ahead => exact ⟨work.total, ahead, work.filled⟩
  next => cases rest

theorem cold_hasWork [Slot V] {reqs : List Nat} (kvQuant : KVQuantConfig) (some : reqs ≠ [])
    (worded : ∀ r ∈ reqs, prompt r ≠ []) : (cold m kStep reqs (reqs.map prompt) kvQuant).HasWork prompt := by
  have filled : Filled (leftPad (reqs.map prompt)).2 (reqs.map prompt) := by
    refine (filled_leftPad (by simpa using some)).mpr fun ids member => ?_
    obtain ⟨r, among, rfl⟩ := List.mem_map.mp member
    exact worded r among
  exact ⟨rfl, filled.columns, filled⟩

theorem warm_hasWork [Slot V] {r cachedLen : Nat} {blocks : List (KVBlock V)} {kvQuant : KVQuantConfig}
    (short : cachedLen < (prompt r).length) (ok : warm m kStep r (prompt r) blocks cachedLen kvQuant = .ok p) :
    p.HasWork prompt := by
  unfold warm at ok
  obtain ⟨cache, -, ok⟩ := bind_ok ok
  obtain rfl := pure_ok ok
  have filled := filled_suffix short
  exact ⟨rfl, filled.columns, filled⟩

end PendingPrefill

/-- A match leaves a token of the prompt to be run. -/
theorem PrefixCache.matchIds_short {c : PrefixCache V} {miss : Option (MissFn V)} {ids : List Int}
    (hit : 0 < (c.matchIds miss ids).1.tokens) : (c.matchIds miss ids).1.tokens < ids.length := by
  simp only [PrefixCache.matchIds] at hit ⊢
  omega

/-! ### What an operation leaves of prompts and units -/

namespace Worker

variable {env : WorkerEnv V L K G I} {w w' w'' : Worker V K G} {flags ids : List Nat} {logits : List L}

/-- The units are the same, and so is the prompt of every request without images. -/
structure Keeps (env : WorkerEnv V L K G I) (w w' : Worker V K G) : Prop where
  pending : w'.pending = w.pending
  prompts : ∀ r, (env.request r).isMultimodal = false → (w'.out r).promptIds = (w.out r).promptIds

theorem Keeps.refl (w : Worker V K G) : Keeps env w w := ⟨rfl, fun _ _ => rfl⟩

theorem Keeps.trans (first : Keeps env w w') (second : Keeps env w' w'') : Keeps env w w'' :=
  ⟨second.pending.trans first.pending, fun r plain => (second.prompts r plain).trans (first.prompts r plain)⟩

theorem keeps_update {r : Nat} {f : Output G → Output G}
    (same : (env.request r).isMultimodal = true ∨ ∀ o, (f o).promptIds = o.promptIds) : Keeps env w (w.update r f) := by
  refine ⟨rfl, fun r' plain => ?_⟩
  change (Function.update w.out r (f (w.out r)) r').promptIds = _
  by_cases own : r' = r
  · subst own
    rcases same with images | same
    · rw [plain] at images
      cases images
    · rw [Function.update_self, same]
  · rw [Function.update_of_ne own]

theorem keeps_pushRow (r : Nat) : Keeps env w (w.pushRow env r) := by
  simp only [pushRow]
  split
  · let pushed : Worker V K G := { w with
      reqs := w.reqs ++ [r], produced := w.produced ++ [0], feed := w.feed ++ [0], finished := w.finished ++ [false]
      history := w.history ++ [(w.out r).promptIds], rngKeys := w.rngKeys ++ [env.key (env.request r).params.seed] }
    have kept : Keeps env w pushed := ⟨rfl, fun _ _ => rfl⟩
    refine kept.trans (keeps_update (.inr fun o => ?_))
    rfl
  · exact ⟨rfl, fun _ _ => rfl⟩

theorem keeps_pushRows (ids : List Nat) : Keeps env w (w.pushRows env ids) := by
  induction ids generalizing w with
  | nil => exact .refl w
  | cons r ids ih => exact (keeps_pushRow r).trans ih

theorem keeps_eachRow {fs : List (RowStep K G)} {b : Nat}
    (same : ∀ f ∈ fs, ∀ row o, (f row o).1.req = row.req ∧ (f row o).2.promptIds = o.promptIds) :
    Keeps env w (eachRow fs b w) := by
  induction fs generalizing b w with
  | nil => exact .refl w
  | cons f fs ih =>
    unfold eachRow
    refine Keeps.trans ?_ (ih fun g member => same g (List.mem_cons_of_mem _ member))
    split
    next row found =>
      obtain ⟨req, prompt⟩ := same f List.mem_cons_self row (w.out row.req)
      refine ⟨rfl, fun r plain => ?_⟩
      simp only [putRow, req]
      by_cases own : r = row.req
      · subst own
        rw [Function.update_self, prompt]
      · rw [Function.update_of_ne own]
    next => exact .refl w

theorem firstToken_prompt (s : Sampled) (row : Row K) (o : Output G) :
    (firstToken env flags s row o).2.promptIds = o.promptIds := by
  simp only [firstToken]
  split
  · rfl
  · exact (Output.consume_frame (env.request row.req) (advanceGrammar env o s.id) row.produced s).1

theorem nextToken_prompt (s : Sampled) (row : Row K) (o : Output G) :
    (nextToken env flags s row o).2.promptIds = o.promptIds := by
  simp only [nextToken]
  split
  · rfl
  · split
    · rfl
    · exact (Output.consume_frame (env.request row.req) (advanceGrammar env o s.id) row.produced s).1

theorem keeps_registerRows (ok : w.registerRows env flags ids logits = .ok w') : Keeps env w w' := by
  unfold registerRows at ok
  obtain ⟨samples, -, ok⟩ := bind_ok ok
  obtain rfl := pure_ok ok
  have keyed : Keeps env (w.pushRows env ids) ((w.pushRows env ids).advanceKeys env w.reqs.length ids.length) :=
    ⟨rfl, fun _ _ => rfl⟩
  refine ((keeps_pushRows _).trans keyed).trans (keeps_eachRow fun f member row o => ?_)
  obtain ⟨s, -, rfl⟩ := List.mem_map.mp member
  exact ⟨firstToken_req flags s row o, firstToken_prompt s row o⟩

theorem keeps_keepRows [Slot V] (keep : List Nat) : Keeps env w (w.keepRows keep) := by
  unfold keepRows
  split
  · exact .refl w
  · split
    · exact ⟨rfl, fun _ _ => rfl⟩
    · exact ⟨rfl, fun _ _ => rfl⟩

theorem keeps_evictFinished [Slot V] : Keeps env w (w.evictFinished env) := by
  obtain ⟨pool, harvested⟩ := harvestFinished_frame env w
  unfold evictFinished
  rw [harvested]
  have closed : Keeps env w (eachRow (List.replicate w.finished.length closeFinished) 0 { w with prefixPool := pool }) := by
    have pooled : Keeps env w { w with prefixPool := pool } := ⟨rfl, fun _ _ => rfl⟩
    refine pooled.trans (keeps_eachRow fun f member row o => ?_)
    obtain rfl := List.eq_of_mem_replicate member
    refine ⟨rfl, ?_⟩
    simp only [closeFinished]
    split <;> rfl
  exact closed.trans (keeps_keepRows _)

theorem keeps_adopt [Slot V] {fresh : BatchKVCache V} (ok : w.adopt fresh ids = .ok w') : Keeps env w w' := by
  unfold adopt at ok
  split at ok
  · obtain rfl := Except.ok.inj ok
    exact ⟨rfl, fun _ _ => rfl⟩
  · obtain ⟨cache, -, ok⟩ := bind_ok ok
    obtain rfl := pure_ok ok
    exact ⟨rfl, fun _ _ => rfl⟩

theorem keeps_handleEmbedding (r : Nat) : Keeps env w (w.handleEmbedding env r) := by
  unfold handleEmbedding
  refine keeps_update (.inr fun o => ?_)
  split <;> rfl

theorem keeps_fail (r : Nat) (stage : AdmitStage) : Keeps env w (w.fail r stage) := by
  have failed : Keeps env w (w.update r fun o => { o with finishReason := "error" }.close) :=
    keeps_update (.inr fun _ => rfl)
  exact ⟨failed.pending, failed.prompts⟩

theorem keeps_admitMultimodal [Slot V] {r : Nat} (images : (env.request r).isMultimodal = true) :
    Keeps env w (w.admitMultimodal env flags r) := by
  unfold admitMultimodal
  split
  · exact keeps_fail r _
  next promptIds decoded given =>
    have prompted : Keeps env w (w.update r fun o => { o with promptIds }) := keeps_update (.inl images)
    refine prompted.trans ?_
    dsimp only
    split
    · exact keeps_fail r _
    next fresh lastLogits prefilled =>
      split
      · have torn : ∀ (w : Worker V K G) cache, Keeps env w { w with cache } := fun _ _ => ⟨rfl, fun _ _ => rfl⟩
        exact (torn _ _).trans (keeps_fail r _)
      next w₁ adopted =>
        refine (keeps_adopt adopted).trans ?_
        split
        · refine Keeps.trans (keeps_pushRows [r]) (Keeps.trans ?_ (keeps_fail r _))
          exact ⟨rfl, fun _ _ => rfl⟩
        next w₂ registered => exact keeps_registerRows registered

/-- What a dispatch leaves for the group are the incoming requests that generate text from text. -/
theorem dispatch_spec [Slot V] (incoming : List Nat) : Keeps env w (w.dispatch env flags incoming).1 ∧
    ∀ r ∈ (w.dispatch env flags incoming).2, r ∈ incoming ∧ (env.request r).embedding = false ∧
      (env.request r).isMultimodal = false := by
  induction incoming generalizing w with
  | nil => exact ⟨.refl w, nofun⟩
  | cons r rest ih =>
    simp only [dispatch]
    split
    · obtain ⟨kept, among⟩ := ih (w := w.handleEmbedding env r)
      exact ⟨(keeps_handleEmbedding r).trans kept, fun r' member =>
        ⟨List.mem_cons_of_mem _ (among r' member).1, (among r' member).2⟩⟩
    next generates =>
      split
      next images =>
        obtain ⟨kept, among⟩ := ih (w := w.admitMultimodal env flags r)
        exact ⟨(keeps_admitMultimodal images).trans kept, fun r' member =>
          ⟨List.mem_cons_of_mem _ (among r' member).1, (among r' member).2⟩⟩
      next plain =>
        obtain ⟨kept, among⟩ := ih (w := w)
        refine ⟨kept, fun r' member => ?_⟩
        rcases List.mem_cons.mp member with rfl | member
        · exact ⟨List.mem_cons_self, by simpa using generates, by simpa using plain⟩
        · exact ⟨List.mem_cons_of_mem _ (among r' member).1, (among r' member).2⟩

theorem splitPrefix_short {split : PrefixSplit V} (ran : splitPrefix env w ids = (split, w')) :
    ∀ p ∈ split.warm, p.2.tokens < (w.out p.1).promptIds.length := by
  induction ids generalizing w w' split with
  | nil =>
    obtain ⟨rfl, rfl⟩ := Prod.mk.inj ran
    exact nofun
  | cons r rest ih =>
    unfold splitPrefix at ran
    split at ran
    · rcases inner : splitPrefix env w rest with ⟨split₁, w₁⟩
      rw [inner] at ran
      obtain ⟨rfl, rfl⟩ := Prod.mk.inj ran
      have later := ih inner
      exact later
    next pool held =>
      rcases lookup : pool.matchIds env.miss (w.out r).promptIds with ⟨m, pool'⟩
      rw [lookup] at ran
      dsimp only at ran
      rcases inner : splitPrefix env { w with prefixPool := some pool' } rest with ⟨split₁, w₁⟩
      rw [inner] at ran
      have later := ih inner
      dsimp only at ran later
      split at ran
      next hit =>
        obtain ⟨rfl, rfl⟩ := Prod.mk.inj ran
        intro p member
        rcases List.mem_cons.mp member with rfl | member
        · have found : (pool.matchIds env.miss (w.out r).promptIds).1 = m := congrArg Prod.fst lookup
          exact found ▸ PrefixCache.matchIds_short (found.symm ▸ hit)
        · exact later p member
      next =>
        obtain ⟨rfl, rfl⟩ := Prod.mk.inj ran
        exact later

theorem keeps_admitWarm [Slot V] {r : Nat} {m : Match V} (ok : w.admitWarm env flags r m = .ok w') : Keeps env w w' := by
  unfold admitWarm at ok
  obtain ⟨pr, -, ok⟩ := bind_ok ok
  obtain ⟨w₁, adopted, ok⟩ := bind_ok ok
  exact (keeps_adopt adopted).trans (keeps_registerRows ok)

theorem keeps_admitCold [Slot V] (ok : w.admitCold env flags ids = .ok w') : Keeps env w w' := by
  unfold admitCold at ok
  obtain ⟨pr, -, ok⟩ := bind_ok ok
  obtain ⟨w₁, adopted, ok⟩ := bind_ok ok
  exact (keeps_adopt adopted).trans (keeps_registerRows ok)

theorem keeps_admitWarms [Slot V] {warm : List (Nat × Match V)}
    (ok : warm.foldlM (fun w p => w.admitWarm env flags p.1 p.2) w = .ok w') : Keeps env w w' := by
  induction warm generalizing w with
  | nil =>
    obtain rfl := pure_ok ok
    exact .refl w
  | cons p warm ih =>
    rw [List.foldlM_cons] at ok
    obtain ⟨w₁, first, ok⟩ := bind_ok ok
    exact (keeps_admitWarm first).trans (ih ok)

theorem keeps_admitGroup [Slot V] (ok : w.admitGroup env flags ids = .ok w') : Keeps env w w' := by
  unfold admitGroup at ok
  rcases ran : splitPrefix env w ids with ⟨split, w₁⟩
  rw [ran] at ok
  obtain ⟨⟨pool, rfl⟩, -⟩ := splitPrefix_spec ran
  have pooled : Keeps env w { w with prefixPool := pool } := ⟨rfl, fun _ _ => rfl⟩
  refine pooled.trans ?_
  dsimp only at ok
  split at ok
  · exact keeps_admitWarms ok
  · obtain ⟨w₂, cold, warm⟩ := bind_ok ok
    exact (keeps_admitCold cold).trans (keeps_admitWarms warm)

theorem keeps_decodeStep [Slot V] (ok : w.decodeStep env flags = .ok w') : Keeps env w w' := by
  unfold decodeStep at ok
  obtain ⟨padded, -, ok⟩ := bind_ok ok
  obtain ⟨state, -, ok⟩ := bind_ok ok
  obtain ⟨samples, -, ok⟩ := bind_ok ok
  obtain rfl := pure_ok ok
  have kept : Keeps env (w.advanceKeys env 0 w.reqs.length)
      (eachRow (samples.map (nextToken env flags)) 0 (w.advanceKeys env 0 w.reqs.length)) := by
    refine keeps_eachRow fun f member row o => ?_
    obtain ⟨s, -, rfl⟩ := List.mem_map.mp member
    exact ⟨nextToken_req flags s row o, nextToken_prompt s row o⟩
  exact ⟨kept.pending, kept.prompts⟩

/-! ### Units -/

/-- The prompts are the requests' own, and every unit has work to do. -/
structure Supplied (env : WorkerEnv V L K G I) (w : Worker V K G) : Prop where
  prompts : ∀ r, (env.request r).isMultimodal = false → (w.out r).promptIds = (env.request r).promptIds
  units : ∀ p ∈ w.pending, p.HasWork fun r => (env.request r).promptIds
  chunked : w.pending ≠ [] → 0 < env.prefillChunk

theorem Supplied.keeps (supplied : w.Supplied env) (kept : Keeps env w w') : w'.Supplied env where
  prompts := fun r plain => (kept.prompts r plain).trans (supplied.prompts r plain)
  units := kept.pending ▸ supplied.units
  chunked := kept.pending ▸ supplied.chunked

/-- A request for text from a text that has tokens. -/
structure Texts (env : WorkerEnv V L K G I) (ids : List Nat) : Prop where
  plain : ∀ r ∈ ids, (env.request r).isMultimodal = false
  worded : ∀ r ∈ ids, (env.request r).promptIds ≠ []

theorem enqueueAdmissions_supplied [Slot V] (supplied : w.Supplied env) (texts : Texts env ids)
    (chunked : 0 < env.prefillChunk) (ok : w.enqueueAdmissions env ids = .ok w') : w'.Supplied env := by
  unfold enqueueAdmissions at ok
  rcases ran : splitPrefix env w ids with ⟨split, w₁⟩
  rw [ran] at ok
  obtain ⟨⟨pool, rfl⟩, order⟩ := splitPrefix_spec ran
  dsimp only at ok
  obtain ⟨warm, each, ok⟩ := bind_ok ok
  have prompt : ∀ r ∈ ids, (w.out r).promptIds = (env.request r).promptIds := fun r member =>
    supplied.prompts r (texts.plain r member)
  have warm_work : ∀ p ∈ warm, p.HasWork fun r => (env.request r).promptIds := by
    intro p member
    obtain ⟨i, at_i⟩ := List.mem_iff_getElem?.mp member
    have inside : i < split.warm.length := mapM_length each ▸ (List.getElem?_eq_some_iff.mp at_i).1
    have listed : split.warm[i]? = some split.warm[i] := List.getElem?_eq_getElem inside
    obtain ⟨p', at_i', built⟩ := mapM_getElem each listed
    obtain rfl : p' = p := Option.some.inj (at_i'.symm.trans at_i)
    have among := List.mem_of_getElem? listed
    have own : split.warm[i].1 ∈ ids :=
      order.mem_iff.mp (List.mem_append_left _ (List.mem_map_of_mem among))
    have short := splitPrefix_short ran _ among
    rw [prompt _ own] at short built
    exact PendingPrefill.warm_hasWork short built
  have cold_ids : ∀ r ∈ split.cold, r ∈ ids := fun r member => order.mem_iff.mp (List.mem_append_right _ member)
  split at ok
  · obtain rfl := pure_ok ok
    refine ⟨supplied.prompts, fun p member => ?_, fun _ => chunked⟩
    exact (List.mem_append.mp member).elim (supplied.units p) (warm_work p)
  next some =>
    obtain rfl := pure_ok ok
    refine ⟨supplied.prompts, fun p member => ?_, fun _ => chunked⟩
    rcases List.mem_append.mp member with member | last
    · exact (List.mem_append.mp member).elim (supplied.units p) (warm_work p)
    · obtain rfl := List.mem_singleton.mp last
      have same : (split.cold.map fun r => (w.out r).promptIds) = split.cold.map fun r => (env.request r).promptIds :=
        List.map_congr_left fun r member => prompt r (cold_ids r member)
      rw [same]
      exact PendingPrefill.cold_hasWork env.kvQuant some fun r member => texts.worded r (cold_ids r member)

theorem advanceChunkedPrefill_supplied [Slot V] (supplied : w.Supplied env)
    (ok : w.advanceChunkedPrefill env flags = .ok w') : w'.Supplied env := by
  unfold advanceChunkedPrefill at ok
  split at ok
  · obtain rfl := Except.ok.inj ok
    exact supplied
  next p rest queue =>
    have chunked := supplied.chunked (by rw [queue]; exact List.cons_ne_nil _ _)
    obtain ⟨work, works⟩ := List.forall_mem_cons.mp (queue ▸ supplied.units)
    obtain ⟨⟨p', last⟩, advanced, ok⟩ := bind_ok ok
    dsimp only at ok
    split at ok
    · obtain rfl := pure_ok ok
      exact ⟨supplied.prompts, List.forall_mem_cons.mpr ⟨work.advance advanced, works⟩, fun _ => chunked⟩
    next last =>
      obtain ⟨w₁, adopted, ok⟩ := bind_ok ok
      obtain ⟨w₂, registered, ok⟩ := bind_ok ok
      obtain rfl := pure_ok ok
      have kept := (keeps_adopt adopted : Keeps env _ _).trans (keeps_registerRows registered)
      exact ⟨fun r plain => (kept.prompts r plain).trans (supplied.prompts r plain), works, fun _ => chunked⟩

end Worker

namespace EngineState

variable [Slot V] (env : WorkerEnv V L K G I) (flags : List Nat)

/-- The token matrices, each with its rows, whose prefill the worker's next step runs to its end. -/
def groups (s : EngineState V K G) : List (KvArray Int × List (List Int)) :=
  match s.location with
  | .admitting incoming =>
    let (w, gen) := s.worker.dispatch env flags incoming
    if gen = [] ∨ 0 < env.prefillChunk then []
    else
      let (split, w) := w.splitPrefix env gen
      let prompts := split.cold.map fun r => (w.out r).promptIds
      (if split.cold = [] then [] else [((leftPad prompts).2, prompts)]) ++ split.warm.map fun p =>
        (suffixTokens (w.out p.1).promptIds p.2.tokens, [(w.out p.1).promptIds.drop p.2.tokens])
  | _ => []

/-- The chunks of prefills that the worker's next step forwards. -/
def prefillChunks (s : EngineState V K G) : List (KvArray Int) :=
  match s.location with
  | .admitting _ => (s.groups env flags).flatMap fun g => chunks prefillStepSize g.1 g.1.cap 0
  | .advancing => s.worker.pending.head?.toList.map (·.chunk env.prefillChunk)
  | _ => []

omit [Slot V] in
/-- A submission that the scheduler accepts asks for text from images, or from a text that has tokens. -/
def WordedOnly (env : WorkerEnv V L K G I) (fe : FrontEnds) (subs : Nat → Submission) (s : EngineState V K G) :
    EngineAction → Prop
  | .submit => (s.sched.submit s.next).1 = true → (env.request s.next).isMultimodal = false →
      fe.tok.Worded fe.tables (fe.promptText (subs s.next))
  | _ => True

/-- Every unit, every group and every chunk of a prefill has columns, and every row a token of its own. -/
structure PrefillWorks (s : EngineState V K G) : Prop where
  units : ∀ p ∈ s.worker.pending, p.HasWork fun r => (env.request r).promptIds
  groups : ∀ flags, ∀ g ∈ s.groups env flags, Filled g.1 g.2 ∧ chunks prefillStepSize g.1 g.1.cap 0 ≠ []
  chunks : ∀ flags, ∀ chunk ∈ s.prefillChunks env flags, 0 < chunk.cap ∧
    ∀ cache logits cache', env.model.forward chunk cache = .ok (logits, cache') → 0 < logits.cap

variable {env flags} {fe : FrontEnds} {subs : Nat → Submission} {s s' : EngineState V K G} {a : EngineAction}
  {maxWaiting : Int}

/-- What every step keeps: what waits has tokens, and what the worker holds has work to do. -/
structure Supplied (env : WorkerEnv V L K G I) (s : EngineState V K G) : Prop where
  worker : s.worker.Supplied env
  worded : ∀ r ∈ s.sched.waiting ++ s.hand, (env.request r).isMultimodal = false → (env.request r).promptIds ≠ []

omit [Slot V] in
theorem Supplied.take (supplied : s.Supplied env) (taken : List Nat) (worker : s'.worker = s.worker)
    (queue : taken ++ s'.sched.waiting = s.sched.waiting) (held : s'.hand = s.hand ++ taken) : s'.Supplied env := by
  refine ⟨worker ▸ supplied.worker, fun r member => supplied.worded r ?_⟩
  rw [held] at member
  rw [← queue]
  simp only [List.mem_append] at member ⊢
  tauto

omit [Slot V] in
/-- The worker is done with what it held. -/
theorem Supplied.work (supplied : s.Supplied env) (worker : s'.worker.Supplied env)
    (queue : s'.sched.waiting = s.sched.waiting) (empty : s'.hand = []) : s'.Supplied env := by
  refine ⟨worker, fun r member => supplied.worded r ?_⟩
  rw [queue, empty, List.append_nil] at member
  exact List.mem_append_left _ member

/-- The requests of a dispatch that are left for the group. -/
theorem Supplied.texts (supplied : s.Supplied env) {incoming : List Nat} (held : s.hand = incoming) :
    Worker.Texts env (s.worker.dispatch env flags incoming).2 := by
  have among : ∀ r ∈ (s.worker.dispatch env flags incoming).2, r ∈ incoming ∧ (env.request r).embedding = false ∧
      (env.request r).isMultimodal = false := (Worker.dispatch_spec incoming).2
  refine ⟨fun r member => (among r member).2.2, fun r member => ?_⟩
  refine supplied.worded r (List.mem_append_right _ ?_) (among r member).2.2
  rw [held]
  exact (among r member).1

theorem Supplied.admit (supplied : s.Supplied env) {incoming : List Nat} (held : s.hand = incoming) {w' : Worker V K G}
    (ok : s.worker.admitIncoming env flags incoming = .ok w') : w'.Supplied env := by
  have texts : Worker.Texts env (s.worker.dispatch env flags incoming).2 := supplied.texts held
  have dispatched : (s.worker.dispatch env flags incoming).1.Supplied env :=
    supplied.worker.keeps (Worker.dispatch_spec incoming).1
  unfold Worker.admitIncoming at ok
  dsimp only at ok
  split at ok
  · obtain rfl := Except.ok.inj ok
    exact dispatched
  · split at ok
    next chunked => exact Worker.enqueueAdmissions_supplied dispatched texts chunked ok
    next => exact dispatched.keeps (Worker.keeps_admitGroup ok)

theorem workerStep_supplied (supplied : s.Supplied env) (stepped : s.workerStep env flags = some s') :
    s'.Supplied env := by
  unfold EngineState.workerStep at stepped
  cases location : s.location with
  | top =>
    have empty : s.hand = [] := by rw [hand, location]
    rw [location] at stepped
    dsimp only at stepped
    split at stepped
    · obtain ⟨⟨r, sched⟩, next, stepped⟩ := Option.bind_eq_some_iff.mp stepped
      obtain ⟨rfl, rfl, -⟩ | ⟨r, rfl, waiting⟩ := Scheduler.nextWaiting_spec next
      · obtain rfl := Option.some.inj stepped
        exact supplied.take [] rfl rfl (by rw [empty]; rfl)
      · obtain rfl := Option.some.inj stepped
        exact supplied.take [r] rfl waiting.symm (by rw [empty]; rfl)
    split at stepped
    · obtain rfl := Option.some.inj stepped
      exact supplied.take _ rfl (Scheduler.takeWaiting_spec s.sched prefillBatchSize) (by rw [empty]; rfl)
    · obtain rfl := Option.some.inj stepped
      exact supplied.take [] rfl rfl (by rw [empty]; rfl)
  | tookFirst r =>
    have first : s.hand = [r] := by rw [hand, location]
    rw [location] at stepped
    obtain rfl := Option.some.inj stepped
    exact supplied.take _ rfl (Scheduler.takeWaiting_spec s.sched (prefillBatchSize - 1)) (by rw [first]; rfl)
  | admitting incoming =>
    rw [location] at stepped
    obtain ⟨w', ran, stepped⟩ := Option.bind_eq_some_iff.mp stepped
    obtain rfl := Option.some.inj stepped
    have admitted := Supplied.admit supplied (by rw [hand, location]) (toOption_some ran)
    exact supplied.work admitted rfl rfl
  | advancing =>
    rw [location] at stepped
    obtain ⟨w', ran, stepped⟩ := Option.bind_eq_some_iff.mp stepped
    obtain rfl := Option.some.inj stepped
    exact supplied.work (Worker.advanceChunkedPrefill_supplied supplied.worker (toOption_some ran)) rfl rfl
  | evicting =>
    rw [location] at stepped
    obtain rfl := Option.some.inj stepped
    refine supplied.work (supplied.worker.keeps Worker.keeps_evictFinished) rfl ?_
    cases (s.worker.evictFinished env).reqs.isEmpty <;> rfl
  | decoding =>
    rw [location] at stepped
    obtain ⟨w', ran, stepped⟩ := Option.bind_eq_some_iff.mp stepped
    obtain rfl := Option.some.inj stepped
    exact supplied.work (supplied.worker.keeps (Worker.keeps_decodeStep (toOption_some ran))) rfl rfl
  | evictingDecoded =>
    rw [location] at stepped
    obtain rfl := Option.some.inj stepped
    exact supplied.work (supplied.worker.keeps Worker.keeps_evictFinished) rfl rfl
  | exited =>
    rw [location] at stepped
    cases stepped

theorem Supplied.step (made : ∀ r, fe.request (subs r) = some (.ok (env.request r))) (supplied : s.Supplied env)
    (worded : s.WordedOnly env fe subs a) (stepped : s.step env a = some s') : s'.Supplied env := by
  cases a with
  | submit =>
    obtain rfl := Option.some.inj stepped
    refine ⟨supplied.worker, fun r member plain => ?_⟩
    obtain ⟨accepted, waiting⟩ | ⟨-, waiting⟩ := Scheduler.submit_spec s.sched s.next
    · have member : r ∈ (s.sched.waiting ++ [s.next]) ++ s.hand := waiting ▸ member
      have old_or_new : r ∈ s.sched.waiting ++ s.hand ∨ r = s.next := by
        simp only [List.mem_append, List.mem_singleton] at member ⊢
        tauto
      rcases old_or_new with old | rfl
      · exact supplied.worded r old plain
      · have encoded := (FrontEnds.request_prompt (made s.next)).1
        exact (Tokenizer.encode_ne_nil_iff encoded).mpr (worded accepted plain)
    · have member : r ∈ s.sched.waiting ++ s.hand := waiting ▸ member
      exact supplied.worded r member plain
  | cancel r =>
    obtain rfl := Option.some.inj stepped
    exact ⟨supplied.worker, supplied.worded⟩
  | stop =>
    obtain rfl := Option.some.inj stepped
    exact ⟨supplied.worker, supplied.worded⟩
  | worker flags =>
    unfold EngineState.step at stepped
    dsimp only at stepped
    split at stepped
    · exact workerStep_supplied supplied stepped
    · cases stepped

omit [Slot V] in
theorem start_supplied (env : WorkerEnv V L K G I) (maxWaiting : Int) : (start env maxWaiting).Supplied env where
  worker := ⟨fun _ _ => rfl, nofun, fun some => absurd rfl some⟩
  worded := nofun

/-- A group that is run at once is made of rows with tokens. -/
theorem Supplied.groups (supplied : s.Supplied env) : ∀ g ∈ s.groups env flags, Filled g.1 g.2 := by
  intro g member
  unfold EngineState.groups at member
  split at member
  next incoming location =>
    have texts : Worker.Texts env (s.worker.dispatch env flags incoming).2 := supplied.texts (by rw [hand, location])
    have dispatched : (s.worker.dispatch env flags incoming).1.Supplied env :=
      supplied.worker.keeps (Worker.dispatch_spec incoming).1
    rcases given : s.worker.dispatch env flags incoming with ⟨w, gen⟩
    rw [given] at member texts dispatched
    dsimp only at member texts dispatched
    split at member
    · cases member
    · rcases ran : w.splitPrefix env gen with ⟨split, w'⟩
      rw [ran] at member
      obtain ⟨⟨pool, rfl⟩, order⟩ := Worker.splitPrefix_spec ran
      have short := Worker.splitPrefix_short ran
      dsimp only at member
      rcases List.mem_append.mp member with cold | warm
      · split at cold
        · cases cold
        next some =>
          obtain rfl := List.mem_singleton.mp cold
          refine (filled_leftPad (by simpa using some)).mpr fun ids among => ?_
          obtain ⟨r, listed, rfl⟩ := List.mem_map.mp among
          have own : r ∈ gen := order.mem_iff.mp (List.mem_append_right _ listed)
          rw [dispatched.prompts r (texts.plain r own)]
          exact texts.worded r own
      · obtain ⟨p, listed, rfl⟩ := List.mem_map.mp warm
        exact filled_suffix (short p listed)
  next => cases member

/-- Over every run that accepts no submission without tokens, through whichever front end and in whatever groups,
prefills have work to do: no unit or chunk without columns, no row of padding alone. -/
theorem prefill_works (made : ∀ r, fe.request (subs r) = some (.ok (env.request r))) (columns : env.model.KeepsColumns)
    (reached : Reachable (step env) (WordedOnly env fe subs) (start env maxWaiting) s) : s.PrefillWorks env := by
  have supplied : s.Supplied env := reached.invariant (start_supplied env maxWaiting) fun supplied worded stepped =>
    supplied.step made worded stepped
  have chunk : ∀ flags, ∀ chunk ∈ s.prefillChunks env flags, 0 < chunk.cap := by
    intro flags chunk member
    unfold prefillChunks at member
    split at member
    · obtain ⟨g, -, among⟩ := List.mem_flatMap.mp member
      exact chunks_columns (by decide) among
    · obtain ⟨p, front, rfl⟩ := List.mem_map.mp member
      have queued : p ∈ s.worker.pending := List.mem_of_mem_head? (by simpa using front)
      exact (supplied.worker.units p queued).chunk (supplied.worker.chunked (List.ne_nil_of_mem queued))
    · cases member
  refine ⟨supplied.worker.units, fun flags g member => ?_, fun flags chunk' member => ?_⟩
  · have filled := supplied.groups g member
    exact ⟨filled, chunks_ne_nil filled.columns⟩
  · refine ⟨chunk flags chunk' member, fun cache logits cache' forwarded => ?_⟩
    rw [columns forwarded]
    exact chunk flags chunk' member

/-! ### The empty text over a small model -/

/-- Front ends of a tokenizer with one letter. -/
def letterOnly (bosId : Int) : FrontEnds where
  tok := { impl := .bpe (.assembleGguf [ascii "a"] [] [1] "gpt2"), bosId }
  tables := ⟨(· == 0x61), fun _ => false, (· == 0x20)⟩
  date := ascii "01 Jan 2025"
  eosTokenIds := []
  modelName := ascii "letter"
  maxCtx := 0
  hasVisionTower := false
  imageTokenCount := fun _ => .ok 0

/-- Every submission is the empty text. -/
def emptyTexts (bosId : Int) : WorkerEnv Int Int Unit Unit Unit :=
  { twoRequests fun _ => 1 with
    request := fun _ => (letterOnly bosId).submitIds (if 0 ≤ bosId then [bosId] else []) none }

theorem emptyTexts_made (bosId : Int) (r : Nat) :
    (letterOnly bosId).request (.text [] none) = some (.ok ((emptyTexts bosId).request r)) := by
  rw [FrontEnds.request, Tokenizer.encode_nil]
  rfl

/-- The submission is taken up and queued for its prefill. -/
def queueOne : List EngineAction := [.submit, .worker [], .worker [], .worker []]

theorem prefill_works_bos : ∃ s, Reachable (step (emptyTexts 0)) (WordedOnly (emptyTexts 0) (letterOnly 0) fun _ => .text [] none)
      (start (emptyTexts 0) 0) s ∧ (s.worker.pending.map fun p => p.tokens.cap) = [1] ∧ s.PrefillWorks (emptyTexts 0) := by
  have run : (queueOne.foldlM (step (emptyTexts 0)) (start (emptyTexts 0) 0)).map
      (fun s => decide ((s.worker.pending.map fun p => p.tokens.cap) = [1])) = some true := by
    decide +kernel
  obtain ⟨s, ran, unit⟩ := Option.map_eq_some_iff.mp run
  have worded : ∀ (s : EngineState Int Unit Unit) a, WordedOnly (emptyTexts 0) (letterOnly 0) (fun _ => .text [] none) s a := by
    intro s a
    cases a with
    | submit => exact fun _ _ => .inl le_rfl
    | _ => trivial
  have reached := (Reachable.of_foldlM ran).mono fun s a _ => worded s a
  exact ⟨s, reached, of_decide_eq_true unit,
    prefill_works (emptyTexts_made 0) DecoderModel.loaded_keepsColumns reached⟩

/-- Without a begin-of-text id the empty text is a unit without columns, and the chunk forwarded for it has none. -/
theorem prefill_without_columns : ∃ s, Reachable (step (emptyTexts (-1))) Transition.Free (start (emptyTexts (-1)) 0) s ∧
    (s.worker.pending.map fun p => p.tokens.cap) = [0] ∧
    (∀ r, (letterOnly (-1)).request (.text [] none) = some (.ok ((emptyTexts (-1)).request r))) ∧
    ¬s.PrefillWorks (emptyTexts (-1)) := by
  have run : (queueOne.foldlM (step (emptyTexts (-1))) (start (emptyTexts (-1)) 0)).map
      (fun s => decide ((s.worker.pending.map fun p => p.tokens.cap) = [0])) = some true := by
    decide +kernel
  obtain ⟨s, ran, unit⟩ := Option.map_eq_some_iff.mp run
  have unit := of_decide_eq_true unit
  refine ⟨s, Reachable.of_foldlM ran, unit, emptyTexts_made (-1), fun works => ?_⟩
  obtain ⟨p, queued⟩ := List.length_eq_one_iff.mp (show s.worker.pending.length = 1 by
    rw [← List.length_map (f := fun p => p.tokens.cap), unit]
    rfl)
  have empty : p.tokens.cap = 0 := by simpa [queued] using unit
  have work := works.units p (by rw [queued]; exact List.mem_singleton_self p)
  have columns := work.filled.columns
  omega

end EngineState

end Mlxforge
