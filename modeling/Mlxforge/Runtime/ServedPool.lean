import Mlxforge.Runtime.Conservation
import Mlxforge.Runtime.ServedWorker

/-!
The prefix pool of a worker that serves a text decoder: every block in it holds the K and V the model computes for the
prefix its key names, so a match is as good as running the prompt.
-/

namespace Mlxforge

variable {V H Q L K G I : Type} [Slot V]

namespace DecoderModel

variable {m : DecoderModel V H Q L} {q : KVQuantConfig}

/-- The K and V of a context's last token. -/
def content (m : DecoderModel V H Q L) (q : KVQuantConfig) : Content V := fun l tokens =>
  ((m.solo q tokens).1.layers.getD l []).getLastD ⟨[], []⟩

/-- One token leaves one entry in every layer. -/
theorem rowLayers_append (pos : Int) (layer : Nat) (x : H) (histories : List (List (Entry V))) :
    ∃ es : List (Entry V), es.length = histories.length ∧
      (m.rowLayers q pos layer x histories).2 = List.zipWith (fun h e => h ++ [e]) histories es := by
  induction histories generalizing layer x with
  | nil => exact ⟨[], rfl, rfl⟩
  | cons history rest ih =>
    let p := m.projectQkv layer x
    let e : Entry V := ⟨q.store (m.ropeK pos p.2.1), q.store p.2.2⟩
    obtain ⟨es, count, ran⟩ := ih (layer + 1)
      (m.residual layer x (m.oProj layer (m.sdpa q (m.ropeQ pos p.1) (history ++ [e]))))
    refine ⟨e :: es, by rw [List.length_cons, List.length_cons, count], ?_⟩
    rw [List.zipWith_cons_cons, ← ran]
    rfl

theorem solo_step (context : List Int) (t : Int) : ∃ es : List (Entry V),
    es.length = (m.solo q context).1.layers.length ∧
      (m.solo q (context ++ [t])).1.layers = List.zipWith (fun h e => h ++ [e]) (m.solo q context).1.layers es := by
  have pad : (m.solo q context).1.pad = 0 := by rw [solo_row]
  obtain ⟨es, count, ran⟩ := rowLayers_append (m := m) (q := q) (m.solo q context).1.offset 0 (m.embed t)
    (m.solo q context).1.layers
  refine ⟨es, count, ?_⟩
  rw [← ran, ← solo_append]
  simp only [rowRun, List.foldl_cons, List.foldl_nil, rowStep, pad, Nat.lt_irrefl, if_false]

/-- Layer by layer, a row holds the content of each prefix of its context. -/
theorem solo_layer (context : List Int) : (m.solo q context).1.layers.length = m.nLayers ∧
    ∀ l h, (m.solo q context).1.layers[l]? = some h →
      h = window (fun t => m.content q l (context.take (t + 1))) 0 context.length := by
  induction context using List.reverseRecOn with
  | nil =>
    refine ⟨List.length_replicate, fun l h at_l => ?_⟩
    exact (List.eq_of_mem_replicate (List.mem_of_getElem? at_l)).trans (window_self _ 0).symm
  | append_singleton context t ih =>
    obtain ⟨es, count, grown⟩ := solo_step (m := m) (q := q) context t
    obtain ⟨layers, old⟩ := ih
    refine ⟨by rw [grown, List.length_zipWith, count, Nat.min_self, layers], fun l h at_l => ?_⟩
    have last : m.content q l (context ++ [t]) = h.getLastD ⟨[], []⟩ := by
      rw [content, List.getD_eq_getElem?_getD, at_l, Option.getD_some]
    rw [grown, List.getElem?_zipWith] at at_l
    cases before : (m.solo q context).1.layers[l]? with
    | none =>
      rw [before] at at_l
      cases at_l
    | some history =>
      cases added : es[l]? with
      | none =>
        rw [before, added] at at_l
        cases at_l
      | some e =>
        rw [before, added] at at_l
        obtain rfl := Option.some.inj at_l
        rw [List.length_append, List.length_singleton, window_succ _ (Nat.zero_le _), List.take_of_length_le (by simp), last,
          List.getLastD_concat]
        congr 1
        refine (old l history before).trans (window_congr fun t' _ below => ?_)
        rw [List.take_append_of_le_length (by omega)]

end DecoderModel

/-! ### Matches -/

/-- The whole-block prefixes of the prompts. -/
def WorkerEnv.chains (env : WorkerEnv V L K G I) : Set (List Int) :=
  {tokens | ∃ r n, n * env.prefixCfg.blockSize ≤ (env.request r).promptIds.length ∧
    tokens = (env.request r).promptIds.take (n * env.prefixCfg.blockSize)}

/-- What the prefix cache relies on: no two prompts' prefixes have one key, and what is revived was spilled. -/
structure WorkerEnv.Keyed (env : WorkerEnv V L K G I) : Prop where
  blockSize : 0 < env.prefixCfg.blockSize
  keys : Set.InjOn (prefixKey env.prefixCfg.salt env.prefixCfg.blockSize) env.chains
  honest : ∀ f, env.miss = some f → HonestMiss f

/-- Every block, pooled or spilled, holds the K and V of the prefix that its key names. -/
def PrefixCache.Truthful (env : WorkerEnv V L K G I) (m : DecoderModel V H Q L) (pool : PrefixCache V) : Prop :=
  pool.cfg = env.prefixCfg ∧ pool.pool.Keeps (Named (m.content env.kvQuant) env.prefixCfg.salt env.prefixCfg.blockSize
    m.nLayers env.kvQuant.components env.chains)

section
variable {env : WorkerEnv V L K G I} {m : DecoderModel V H Q L} {pool : PrefixCache V} {r : Nat}

omit [Slot V] in
theorem WorkerEnv.prompt_occurs (env : WorkerEnv V L K G I) (r : Nat) :
    Occurs env.chains env.prefixCfg.blockSize (env.request r).promptIds := fun n _ inside => ⟨r, n, inside, rfl⟩

omit [Slot V] in
/-- Blocks that hold one span after another hold the whole. -/
theorem flatMap_spans {content : Content V} {bs nLayers c l : Nat} {ids : List Int} (inside : l < nLayers)
    (blocks : List (KVBlock V)) (room : blocks.length * bs ≤ ids.length)
    (spans : ∀ (j : Nat) b, blocks[j]? = some b → b.HoldsSpan content bs nLayers c (ids.take ((j + 1) * bs))) :
    blocks.flatMap (fun b => b.entries bs l) = window (fun t => content l (ids.take (t + 1))) 0 (blocks.length * bs) := by
  induction blocks using List.reverseRecOn with
  | nil => simp
  | append_singleton blocks b ih =>
    have next : (blocks ++ [b]).length * bs = blocks.length * bs + bs := by
      rw [List.length_append, List.length_singleton, Nat.succ_mul]
    rw [next] at room ⊢
    have rest := ih (by omega) fun j b' at_j =>
      spans j b' (by rw [List.getElem?_append_left (List.getElem?_eq_some_iff.mp at_j).1, at_j])
    have last := (spans blocks.length b (by simp)).span l inside
    rw [List.length_take, Nat.succ_mul, Nat.min_eq_left room, Nat.add_sub_cancel] at last
    rw [List.flatMap_append, List.flatMap_singleton, rest, last, ← window_append _ (Nat.zero_le _) (Nat.le_add_right _ bs)]
    congr 1
    apply window_congr
    intro t _ below
    rw [List.take_take, Nat.min_eq_left (by omega)]

/-- A match in a true pool is the K and V of the prompt's own first tokens, and the pool stays true. -/
theorem PrefixCache.Truthful.matched (keyed : env.Keyed) (holds : pool.Truthful env m) :
    (pool.matchIds env.miss (env.request r).promptIds).2.Truthful env m ∧
      (0 < (pool.matchIds env.miss (env.request r).promptIds).1.tokens →
        HoldsPrefix m env.kvQuant env.prefixCfg.blockSize (pool.matchIds env.miss (env.request r).promptIds).1.blocks
          (pool.matchIds env.miss (env.request r).promptIds).1.tokens (env.request r).promptIds) := by
  obtain ⟨cfg, keeps⟩ := holds
  obtain ⟨keeps', count, spans, -⟩ := PrefixCache.matchLoop_spec (b := 0) (h := env.prefixCfg.salt)
    (n := (env.request r).promptIds.length / env.prefixCfg.blockSize) keyed.blockSize keyed.keys (env.prompt_occurs r)
    keyed.honest keeps rfl (by rw [Nat.zero_add]; exact Nat.div_mul_le_self _ _)
  simp only [PrefixCache.matchIds, cfg]
  generalize PrefixCache.matchLoop env.miss env.prefixCfg.blockSize (env.request r).promptIds _ 0 env.prefixCfg.salt
    pool.pool = found at *
  refine ⟨⟨rfl, keeps'⟩, fun some => ?_⟩
  generalize size : (max 0 (min ((found.1.length * env.prefixCfg.blockSize : Nat) : Int)
    (((env.request r).promptIds.length : Int) - 1))).toNat = n at *
  have blocks : found.1.length * env.prefixCfg.blockSize ≤ (env.request r).promptIds.length :=
    (Nat.le_div_iff_mul_le keyed.blockSize).mp count
  have spans : ∀ (j : Nat) b, found.1[j]? = .some b → b.HoldsSpan (m.content env.kvQuant) env.prefixCfg.blockSize m.nLayers
      env.kvQuant.components ((env.request r).promptIds.take ((j + 1) * env.prefixCfg.blockSize)) := by
    intro j b at_j
    have span := spans j b at_j
    rwa [Nat.zero_add] at span
  obtain ⟨layers, each⟩ := m.solo_layer (q := env.kvQuant) ((env.request r).promptIds.take n)
  refine ⟨keyed.blockSize, some, by omega, by omega, fun b member => ?_, ?_⟩
  · obtain ⟨j, at_j⟩ := List.mem_iff_getElem?.mp member
    exact (spans j b at_j).shaped
  · apply List.ext_getElem
    · rw [List.length_map, List.length_range, layers]
    · intro l h₁ h₂
      have inside : l < m.nLayers := by simpa using h₁
      rw [List.getElem_map, List.getElem_range, flatMap_spans inside found.1 blocks spans,
        each l _ (List.getElem?_eq_getElem h₂), window_take _ (by omega), Nat.zero_add, List.length_take,
        Nat.min_eq_left (by omega)]
      apply window_congr
      intro t _ below
      rw [List.take_take, Nat.min_eq_left (by omega)]

/-! ### Harvests -/

omit [Slot V] in
theorem chainKey_begins {salt : UInt64} {bs n : Nat} {prompt ids : List Int} (begins : prompt <+: ids)
    (short : n * bs ≤ prompt.length) : chainKey salt bs ids n = chainKey salt bs prompt n := by
  obtain ⟨rest, rfl⟩ := begins
  rw [← chainKey_take salt bs (prompt ++ rest) le_rfl, List.take_append_of_le_length short, chainKey_take _ _ _ le_rfl]

omit [Slot V] in
/-- A harvest of a prompt's span does not look behind the prompt. -/
theorem PrefixCache.harvest_begins {nbytes : KvArray V → Nat} {len nLayers : Nat} {fetch : LayerFetch V} {prompt ids : List Int}
    (begins : prompt <+: ids) (short : len ≤ prompt.length) :
    pool.harvest nbytes ids len nLayers fetch = pool.harvest nbytes prompt len nLayers fetch := by
  have keys : ∀ b < len / pool.cfg.blockSize, chainKey pool.cfg.salt pool.cfg.blockSize ids (b + 1) =
      chainKey pool.cfg.salt pool.cfg.blockSize prompt (b + 1) := by
    intro b below
    refine chainKey_begins begins ?_
    have := Nat.mul_le_mul_right pool.cfg.blockSize (show b + 1 ≤ len / pool.cfg.blockSize from below)
    have := Nat.div_mul_le_self len pool.cfg.blockSize
    omega
  have longer := begins.length_le
  have fresh : ((List.range (len / pool.cfg.blockSize)).filter fun b =>
        !pool.pool.contains (chainKey pool.cfg.salt pool.cfg.blockSize ids (b + 1))) =
      (List.range (len / pool.cfg.blockSize)).filter fun b =>
        !pool.pool.contains (chainKey pool.cfg.salt pool.cfg.blockSize prompt (b + 1)) :=
    List.filter_congr fun b member => by rw [keys b (List.mem_range.mp member)]
  simp only [harvest, Nat.min_eq_left short, Nat.min_eq_left (short.trans longer), fresh]
  have blocks : ((List.range (len / pool.cfg.blockSize)).filter fun b =>
        !pool.pool.contains (chainKey pool.cfg.salt pool.cfg.blockSize prompt (b + 1))).map (fun b =>
        (chainKey pool.cfg.salt pool.cfg.blockSize ids (b + 1), sealBlock nbytes pool.cfg.blockSize nLayers fetch b)) =
      ((List.range (len / pool.cfg.blockSize)).filter fun b =>
        !pool.pool.contains (chainKey pool.cfg.salt pool.cfg.blockSize prompt (b + 1))).map fun b =>
        (chainKey pool.cfg.salt pool.cfg.blockSize prompt (b + 1), sealBlock nbytes pool.cfg.blockSize nLayers fetch b) :=
    List.map_congr_left fun b member => by rw [keys b (List.mem_range.mp (List.mem_filter.mp member).1)]
  rw [blocks]

namespace Worker

variable {w w' : Worker V K G} {rows : List (Row K)} {contexts : List (List Int)} {c : BatchKVCache V}

/-- A row's recorded tokens begin with its prompt. -/
def Recalls (env : WorkerEnv V L K G I) (row : Row K) : Prop := (env.request row.req).promptIds <+: row.history

theorem harvestRow_truthful (keyed : env.Keyed) (layers : env.model.nLayers = m.nLayers) (supplied : w.Supplied env)
    (aligned : w.Aligned rows) (holds : m.Holds env.kvQuant contexts c)
    (starts : List.Forall₂ (fun row context => (env.request row.req).promptIds <+: context) rows contexts)
    (recalls : ∀ row ∈ rows, (env.request row.req).isMultimodal = false → Recalls env row) (held : pool.Truthful env m) (b : Nat) :
    (w.harvestRow env c pool b).Truthful env m := by
  unfold harvestRow
  rw [aligned.row?]
  cases at_b : rows[b]? with
  | none => exact held
  | some row =>
    dsimp only
    split
    · exact held
    next kept =>
      split
      · exact held
      next room =>
        have text : (env.request row.req).isMultimodal = false := by
          simp only [Bool.or_eq_true, not_or] at kept
          exact Bool.eq_false_iff.mpr kept.2
        rw [supplied.prompts _ text] at room ⊢
        generalize size : min (c.idx - c.padding b) ((env.request row.req).promptIds.length : Int) = len at *
        obtain ⟨inside, rfl⟩ := List.getElem?_eq_some_iff.mp at_b
        have inside' : b < contexts.length := starts.length_eq ▸ inside
        have start : (env.request rows[b].req).promptIds <+: contexts[b] := by
          have := starts.get inside inside'
          simpa only [List.get_eq_getElem] using this
        have begins : Recalls env rows[b] := recalls _ (List.getElem_mem inside) text
        have positive := keyed.blockSize
        have short : len.toNat ≤ (env.request rows[b].req).promptIds.length := by omega
        rw [PrefixCache.harvest_begins begins short, layers]
        have fetched : FetchHolds (m.content env.kvQuant) c.layers.length c.qcfg.components (env.request rows[b].req).promptIds
            len.toNat fun layer => c.fetchRowComponents layer b (c.padding b) len.toNat :=
          fetchRowComponents_holds holds.wf holds.stocked (show b < c.batch by rw [holds.batch]; exact inside')
            (show c.padding b + len.toNat ≤ c.idx by omega) fun l h at_l => by
            rw [holds.row inside'] at at_l
            have longer := start.length_le
            rw [(m.solo_layer contexts[b]).2 l h at_l, window_take _ (by omega), Nat.zero_add]
            apply window_congr
            intro t _ below
            obtain ⟨rest, whole⟩ := start
            rw [← whole, List.take_append_of_le_length (by omega)]
        rw [holds.layers, holds.qcfg] at fetched
        have exact_len : (len.toNat : Int) = len := by omega
        rw [exact_len] at fetched
        obtain ⟨cfg, keeps⟩ := held
        refine ⟨cfg, ?_⟩
        rw [← cfg] at positive keeps ⊢
        exact PrefixCache.harvest_keeps positive (by rw [cfg]; exact env.prompt_occurs _) fetched keeps

/-! ### The pool among the worker's operations -/

/-- The worker has a pool only where the prefix cache is on, and then it is truthful. -/
structure Pooled (env : WorkerEnv V L K G I) (m : DecoderModel V H Q L) (w : Worker V K G) : Prop where
  off : env.prefixCfg.enabled = false → w.prefixPool = none
  truthful : ∀ pool, w.prefixPool = some pool → pool.Truthful env m

theorem Pooled.congr (pooled : w.Pooled env m) (same : w'.prefixPool = w.prefixPool) : w'.Pooled env m :=
  ⟨fun off => same.trans (pooled.off off), fun pool found => pooled.truthful pool (same.symm.trans found)⟩

theorem Pooled.on (pooled : w.Pooled env m) (found : w.prefixPool = some pool) : env.prefixCfg.enabled = true := by
  by_contra off
  rw [pooled.off (Bool.eq_false_iff.mpr off)] at found
  cases found

/-- The pool answers for each prompt in turn. -/
theorem splitPrefix_pooled {ids : List Nat} {split : PrefixSplit V} (keyed : env.prefixCfg.enabled = true → env.Keyed)
    (pooled : w.Pooled env m) (prompts : ∀ r ∈ ids, (w.out r).promptIds = (env.request r).promptIds)
    (ran : splitPrefix env w ids = (split, w')) : w'.Pooled env m ∧ ∀ p ∈ split.warm,
      HoldsPrefix m env.kvQuant env.prefixCfg.blockSize p.2.blocks p.2.tokens (env.request p.1).promptIds := by
  induction ids generalizing w w' split with
  | nil =>
    obtain ⟨rfl, rfl⟩ := Prod.mk.inj ran
    exact ⟨pooled, List.forall_mem_nil _⟩
  | cons r rest ih =>
    obtain ⟨own, prompts⟩ := List.forall_mem_cons.mp prompts
    unfold splitPrefix at ran
    split at ran
    · rcases inner : splitPrefix env w rest with ⟨split₁, w₁⟩
      rw [inner] at ran
      obtain ⟨rfl, rfl⟩ := Prod.mk.inj ran
      have later := ih pooled prompts inner
      exact later
    next pool held =>
      rw [own] at ran
      obtain ⟨truthful, matched⟩ := PrefixCache.Truthful.matched (r := r) (keyed (pooled.on held)) (pooled.truthful pool held)
      rcases lookup : pool.matchIds env.miss (env.request r).promptIds with ⟨found, pool'⟩
      rw [lookup] at ran truthful matched
      dsimp only at ran truthful matched
      rcases inner : splitPrefix env { w with prefixPool := some pool' } rest with ⟨split₁, w₁⟩
      rw [inner] at ran
      have pooled' : Pooled env m { w with prefixPool := some pool' } := by
        refine ⟨fun off => ?_, fun pool₁ found => ?_⟩
        · rw [pooled.on held] at off
          cases off
        · obtain rfl := Option.some.inj found
          exact truthful
      obtain ⟨last, spans⟩ := ih pooled' prompts inner
      dsimp only at ran
      split at ran
      next hit =>
        obtain ⟨rfl, rfl⟩ := Prod.mk.inj ran
        exact ⟨last, List.forall_mem_cons.mpr ⟨matched hit, spans⟩⟩
      next =>
        obtain ⟨rfl, rfl⟩ := Prod.mk.inj ran
        exact ⟨last, spans⟩

/-- Neither the pool nor the failed admissions differ. -/
structure Stays (w w' : Worker V K G) : Prop where
  pool : w'.prefixPool = w.prefixPool
  errors : w'.errors = w.errors

omit [Slot V] in
theorem Stays.trans {w'' : Worker V K G} (first : Stays w w') (second : Stays w' w'') : Stays w w'' :=
  ⟨second.pool.trans first.pool, second.errors.trans first.errors⟩

omit [Slot V] in
theorem stays_eachRow (fs : List (RowStep K G)) (b : Nat) : Stays w (eachRow fs b w) := by
  induction fs generalizing b w with
  | nil => exact ⟨rfl, rfl⟩
  | cons f fs ih =>
    unfold eachRow
    refine Stays.trans ?_ (ih (b + 1))
    cases w.row? b <;> exact ⟨rfl, rfl⟩

omit [Slot V] in
theorem stays_pushRows (ids : List Nat) : Stays w (w.pushRows env ids) := by
  induction ids generalizing w with
  | nil => exact ⟨rfl, rfl⟩
  | cons r ids ih =>
    have pushed : Stays w (w.pushRow env r) := by
      simp only [pushRow]
      split <;> exact ⟨rfl, rfl⟩
    exact pushed.trans ih

variable {flags ids : List Nat} {last : List L} {r : Nat} {found : Match V}

omit [Slot V] in
theorem stays_registerRows (ok : w.registerRows env flags ids last = .ok w') : Stays w w' := by
  unfold registerRows at ok
  obtain ⟨samples, -, ok⟩ := bind_ok ok
  obtain rfl := pure_ok ok
  have keyed : Stays (w.pushRows env ids) ((w.pushRows env ids).advanceKeys env w.reqs.length ids.length) := ⟨rfl, rfl⟩
  exact ((stays_pushRows ids).trans keyed).trans (stays_eachRow _ _)

theorem stays_adopt {fresh : BatchKVCache V} (ok : w.adopt fresh ids = .ok w') : Stays w w' := by
  unfold adopt at ok
  split at ok
  · obtain rfl := Except.ok.inj ok
    exact ⟨rfl, rfl⟩
  · obtain ⟨cache, -, ok⟩ := bind_ok ok
    obtain rfl := pure_ok ok
    exact ⟨rfl, rfl⟩

theorem stays_admitWarm (ok : w.admitWarm env flags r found = .ok w') : Stays w w' := by
  unfold admitWarm at ok
  obtain ⟨pr, -, ok⟩ := bind_ok ok
  obtain ⟨w₁, adopted, ok⟩ := bind_ok ok
  exact (stays_adopt adopted).trans (stays_registerRows ok)

theorem stays_admitCold (ok : w.admitCold env flags ids = .ok w') : Stays w w' := by
  unfold admitCold at ok
  obtain ⟨pr, -, ok⟩ := bind_ok ok
  obtain ⟨w₁, adopted, ok⟩ := bind_ok ok
  exact (stays_adopt adopted).trans (stays_registerRows ok)

theorem stays_admitWarms {warm : List (Nat × Match V)}
    (ok : warm.foldlM (fun w p => w.admitWarm env flags p.1 p.2) w = .ok w') : Stays w w' := by
  induction warm generalizing w with
  | nil =>
    obtain rfl := pure_ok ok
    exact ⟨rfl, rfl⟩
  | cons p warm ih =>
    rw [List.foldlM_cons] at ok
    obtain ⟨w₁, first, ok⟩ := bind_ok ok
    exact (stays_admitWarm first).trans (ih ok)

theorem stays_admitGroup (ok : w.admitGroup env flags ids = .ok w') : Stays (splitPrefix env w ids).2 w' := by
  unfold admitGroup at ok
  rcases ran : splitPrefix env w ids with ⟨split, w₁⟩
  rw [ran] at ok
  dsimp only at ok ⊢
  split at ok
  · exact stays_admitWarms ok
  · obtain ⟨w₂, cold, warm⟩ := bind_ok ok
    exact (stays_admitCold cold).trans (stays_admitWarms warm)

theorem stays_enqueueAdmissions (ok : w.enqueueAdmissions env ids = .ok w') : Stays (splitPrefix env w ids).2 w' := by
  unfold enqueueAdmissions at ok
  rcases ran : splitPrefix env w ids with ⟨split, w₁⟩
  rw [ran] at ok
  dsimp only at ok ⊢
  obtain ⟨warm, -, ok⟩ := bind_ok ok
  split at ok
  · obtain rfl := pure_ok ok
    exact ⟨rfl, rfl⟩
  · obtain rfl := pure_ok ok
    exact ⟨rfl, rfl⟩

theorem stays_advanceChunkedPrefill (ok : w.advanceChunkedPrefill env flags = .ok w') : Stays w w' := by
  unfold advanceChunkedPrefill at ok
  split at ok
  · obtain rfl := Except.ok.inj ok
    exact ⟨rfl, rfl⟩
  next p rest queue =>
    obtain ⟨⟨p', last⟩, -, ok⟩ := bind_ok ok
    dsimp only at ok
    split at ok
    · obtain rfl := pure_ok ok
      exact ⟨rfl, rfl⟩
    · obtain ⟨w₁, adopted, ok⟩ := bind_ok ok
      obtain ⟨w₂, registered, ok⟩ := bind_ok ok
      obtain rfl := pure_ok ok
      have joined := (stays_adopt adopted).trans (stays_registerRows registered)
      exact ⟨joined.pool, joined.errors⟩

/-- What a text model fails of a dispatch, it fails before the batch is touched. -/
theorem dispatch_clean (text : env.visionModel = false) (clean : w.Clean) :
    (dispatch env flags w ids).1.prefixPool = w.prefixPool ∧ (dispatch env flags w ids).1.Clean := by
  induction ids generalizing w with
  | nil => exact ⟨rfl, clean⟩
  | cons r rest ih =>
    unfold dispatch
    split
    · exact ih clean
    split
    · have failed : w.admitMultimodal env flags r = w.fail r .prepare := by
        rw [admitMultimodal, multimodalPrompt, text]
        rfl
      rw [failed]
      refine ih fun e member => ?_
      rcases List.mem_append.mp member with old | new
      · exact clean e old
      · rw [List.mem_singleton.mp new]
    · exact ih clean

/-- What is left for the group by a dispatch is looked up by its own prompts. -/
theorem dispatch_split (keyed : env.prefixCfg.enabled = true → env.Keyed) (text : env.visionModel = false)
    (pooled : w.Pooled env m) (clean : w.Clean) (supplied : w.Supplied env) (flags ids : List Nat) :
    let split := splitPrefix env (dispatch env flags w ids).1 (dispatch env flags w ids).2
    (dispatch env flags w ids).1.Pooled env m ∧ (dispatch env flags w ids).1.Clean ∧ split.2.Pooled env m ∧ split.2.Clean ∧
      ∀ p ∈ split.1.warm, HoldsPrefix m env.kvQuant env.prefixCfg.blockSize p.2.blocks p.2.tokens
        (env.request p.1).promptIds := by
  obtain ⟨kept, among⟩ := @dispatch_spec _ _ _ _ _ env w flags _ ids
  obtain ⟨pool₁, clean₁⟩ := @dispatch_clean _ _ _ _ _ _ env w flags ids text clean
  have pooled₁ := pooled.congr pool₁
  have prompts : ∀ r ∈ (dispatch env flags w ids).2,
      ((dispatch env flags w ids).1.out r).promptIds = (env.request r).promptIds := fun r member =>
    (supplied.keeps kept).prompts r (among r member).2.2
  rcases cut : splitPrefix env (dispatch env flags w ids).1 (dispatch env flags w ids).2 with ⟨split, w₂⟩
  obtain ⟨pooled₂, spans⟩ := splitPrefix_pooled keyed pooled₁ prompts cut
  obtain ⟨⟨pool, rfl⟩, -⟩ := splitPrefix_spec cut
  exact ⟨pooled₁, clean₁, pooled₂, clean₁, spans⟩

/-- An admission finds only prefixes that are the prompts' own. -/
theorem trueMatches_of_pooled (keyed : env.prefixCfg.enabled = true → env.Keyed) (text : env.visionModel = false)
    (pooled : w.Pooled env m) (clean : w.Clean) (supplied : w.Supplied env) (flags ids : List Nat) :
    (dispatch env flags w ids).1.TrueMatches env m (dispatch env flags w ids).2 := by
  obtain ⟨-, -, -, -, spans⟩ := dispatch_split keyed text pooled clean supplied flags ids
  exact fun p member => ⟨_, spans p member⟩

theorem admitIncoming_pooled (keyed : env.prefixCfg.enabled = true → env.Keyed) (text : env.visionModel = false)
    (pooled : w.Pooled env m) (clean : w.Clean) (supplied : w.Supplied env) (ok : w.admitIncoming env flags ids = .ok w') :
    w'.Pooled env m ∧ w'.Clean := by
  obtain ⟨pooled₁, clean₁, pooled₂, clean₂, -⟩ := dispatch_split keyed text pooled clean supplied flags ids
  have later : Stays (splitPrefix env (dispatch env flags w ids).1 (dispatch env flags w ids).2).2 w' →
      w'.Pooled env m ∧ w'.Clean := fun stays =>
    ⟨pooled₂.congr stays.pool, fun e member => clean₂ e (stays.errors ▸ member)⟩
  unfold admitIncoming at ok
  dsimp only at ok
  split at ok
  · obtain rfl := Except.ok.inj ok
    exact ⟨pooled₁, clean₁⟩
  split at ok
  · exact later (stays_enqueueAdmissions ok)
  · exact later (stays_admitGroup ok)

theorem stays_evictFinished : Stays (w.harvestFinished env) (w.evictFinished env) := by
  rw [evictFinished, keepRows]
  have closed : Stays (w.harvestFinished env)
      (eachRow (List.replicate (w.harvestFinished env).finished.length closeFinished) 0 (w.harvestFinished env)) := stays_eachRow _ _
  split
  · exact closed
  · split
    · exact ⟨closed.pool, closed.errors⟩
    · exact ⟨closed.pool, closed.errors⟩

/-- Rows that are evicted leave true blocks behind. -/
theorem evictFinished_pooled {greedy : L → Int} {record : L → Int → TokenLogprob Rat} {cancelled : List Nat}
    (keyed : env.prefixCfg.enabled = true → env.Keyed) (layers : env.model.nLayers = m.nLayers) (pooled : w.Pooled env m)
    (supplied : w.Supplied env) (serving : w.Serving env m greedy record cancelled)
    (recalls : env.prefixCfg.enabled = true → ∀ rows, w.Aligned rows → ∀ row ∈ rows,
      (env.request row.req).isMultimodal = false → Recalls env row) :
    (w.evictFinished env).Pooled env m := by
  refine Pooled.congr ?_ stays_evictFinished.pool
  unfold harvestFinished
  split
  next pool c held cached =>
    split
    · have on := pooled.on held
      obtain ⟨rows, contexts, aligned, caches, fits⟩ := serving.rows
      rw [Caches, cached] at caches
      refine ⟨fun off => ?_, fun pool' found => ?_⟩
      · rw [on] at off
        cases off
      obtain rfl := Option.some.inj found
      have each : ∀ (bs : List Nat) (pool : PrefixCache V), pool.Truthful env m →
          (bs.foldl (w.harvestRow env c) pool).Truthful env m := by
        intro bs
        induction bs with
        | nil => exact fun _ held => held
        | cons b bs ih =>
          exact fun pool held => ih _ (harvestRow_truthful (keyed on) layers supplied aligned caches
            (fits.imp fun _ _ fit => fit.starts) (recalls on rows aligned) held b)
      exact each _ pool (pooled.truthful pool held)
    · exact pooled
  · exact pooled

end Worker

end

end Mlxforge
