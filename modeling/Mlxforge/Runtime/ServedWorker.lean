import Mlxforge.Runtime.PrefillWork
import Mlxforge.Runtime.ServedRows

/-!
Every operation of the worker keeps `Serving`: the rows of the batch stand in the order of the cache's contexts, and each
greedy request is where single-stream generation would be.
-/

namespace Mlxforge

variable {V H Q L K G I : Type}

namespace Worker

variable [Slot V] {env : WorkerEnv V L K G I} {m : DecoderModel V H Q L} {greedy : L → Int}
  {record : L → Int → TokenLogprob Rat} {w w' : Worker V K G} {cancelled flags ids hand : List Nat} {rows : List (Row K)}

/-- The cache holds the contexts; without one there are none. -/
def Caches (env : WorkerEnv V L K G I) (m : DecoderModel V H Q L) (w : Worker V K G) (contexts : List (List Int)) : Prop :=
  match w.cache with
  | none => contexts = []
  | some c => m.Holds env.kvQuant contexts c

/-- A row whose context is `context` was fed its prompt first, and serves its request, if that is a greedy one. -/
structure Fits (env : WorkerEnv V L K G I) (m : DecoderModel V H Q L) (greedy : L → Int) (record : L → Int → TokenLogprob Rat)
    (cancelled : List Nat) (out : Nat → Output G) (row : Row K) (context : List Int) : Prop where
  starts : (env.request row.req).promptIds <+: context
  live : (env.request row.req).Greedy → Live env m greedy record cancelled row.req context row (out row.req)

structure Serving (env : WorkerEnv V L K G I) (m : DecoderModel V H Q L) (greedy : L → Int)
    (record : L → Int → TokenLogprob Rat) (cancelled : List Nat) (w : Worker V K G) : Prop where
  rows : ∃ rows contexts, w.Aligned rows ∧ w.Caches env m contexts ∧
    List.Forall₂ (Fits env m greedy record cancelled w.out) rows contexts
  steady : ∀ r, (env.request r).Greedy → Steady env m record r (w.out r)
  settled : ∀ r, (env.request r).Greedy → r ∉ w.reqs → (w.out r).closes ≠ [] →
    Ended env m greedy cancelled r (w.out r) ∧ (w.out r).closes = [(w.out r).finishReason]

/-- Operations that touch neither rows nor cache nor a greedy request. -/
theorem Serving.frame (serving : w.Serving env m greedy record cancelled) (columns : ∀ {rows}, w.Aligned rows → w'.Aligned rows)
    (cache : w'.cache = w.cache) (others : ∀ r, (env.request r).Greedy → w'.out r = w.out r) : w'.Serving env m greedy record cancelled := by
  obtain ⟨rows, contexts, aligned, held, fits⟩ := serving.rows
  have reqs : w'.reqs = w.reqs := (columns aligned).reqs.trans aligned.reqs.symm
  have fits' : List.Forall₂ (Fits env m greedy record cancelled w'.out) rows contexts := fits.imp fun row context fit =>
    ⟨fit.starts, fun plain => by rw [others _ plain]; exact fit.live plain⟩
  refine ⟨⟨rows, contexts, columns aligned, ?_, fits'⟩, fun r plain => ?_, fun r plain => ?_⟩
  · unfold Caches at held ⊢
    rwa [cache]
  · rw [others r plain]
    exact serving.steady r plain
  · rw [others r plain, reqs]
    exact serving.settled r plain

theorem Serving.pooled (serving : w.Serving env m greedy record cancelled) (pending : List (PendingPrefill Nat V))
    (prefixPool : Option (PrefixCache V)) : ({ w with pending, prefixPool } : Worker V K G).Serving env m greedy record cancelled :=
  serving.frame (fun aligned => aligned.congr rfl rfl rfl rfl rfl rfl) rfl fun _ _ => rfl

/-! ### Admission -/

/-- A fresh cache joins the batch's. -/
theorem adopt_caches {contexts prompts : List (List Int)} {fresh : BatchKVCache V} (held : w.Caches env m contexts)
    (holds : m.Holds env.kvQuant prompts fresh) (ok : w.adopt fresh ids = .ok w') :
    w'.Caches env m (contexts ++ prompts) ∧ (∀ {rows}, w.Aligned rows → w'.Aligned rows) ∧ w'.out = w.out ∧
      w'.pending = w.pending := by
  unfold adopt at ok
  unfold Caches at held ⊢
  cases cached : w.cache with
  | none =>
    rw [cached] at ok held
    obtain rfl := Except.ok.inj ok
    obtain rfl := held
    exact ⟨holds, fun aligned => aligned.congr rfl rfl rfl rfl rfl rfl, rfl, rfl⟩
  | some c =>
    rw [cached] at ok held
    obtain ⟨merged, joined, ok⟩ := bind_ok ok
    obtain rfl := pure_ok ok
    obtain ⟨c', ok', holds'⟩ := DecoderModel.Holds.merge held holds
    obtain rfl := Except.ok.inj (joined.symm.trans ok')
    exact ⟨holds', fun aligned => aligned.congr rfl rfl rfl rfl rfl rfl, rfl, rfl⟩

/-- Prefilled requests are registered behind their fresh cache. -/
theorem joined_serving (serves : env.Serves m greedy record) (flagged : flags ⊆ cancelled) (serving : w.Serving env m greedy record cancelled)
    (distinct : (w.reqs ++ ids).Nodup) (fresh : ∀ r ∈ ids, Untouched (w.out r)) {cache : BatchKVCache V} {last : List L}
    (filled : Prefilled m env.kvQuant (ids.map fun r => (env.request r).promptIds) cache last) {w₁ : Worker V K G}
    (adopted : w.adopt cache ids = .ok w₁) (registered : w₁.registerRows env flags ids last = .ok w') :
    w'.Serving env m greedy record cancelled := by
  obtain ⟨rows, contexts, aligned, held, fits⟩ := serving.rows
  obtain ⟨held₁, columns, out, -⟩ := adopt_caches held (DecoderModel.Holds.of_prefilled filled) adopted
  rw [aligned.reqs] at distinct
  obtain ⟨new, aligned', names, each, others, rest⟩ := registerRows_spec (columns aligned) distinct registered
  rw [out] at each others
  have live : ∀ (i r : Nat) (row : Row K), ids[i]? = some r → new[i]? = some row → (env.request r).Greedy →
      Live env m greedy record cancelled r (env.request r).promptIds row (w'.out r) := by
    intro i r row at_i found plain
    obtain ⟨l, row', logit, found', registered⟩ := each i r at_i
    obtain rfl := Option.some.inj (found.symm.trans found')
    have prefilled := (filled.row i (env.request r).promptIds (by rw [List.getElem?_map, at_i]; rfl)).1
    have read : l = m.logitsAfter env.kvQuant (env.request r).promptIds := by
      have value := congrArg Prod.snd prefilled
      rw [logit] at value
      rw [DecoderModel.logitsAfter, ← value]
      rfl
    exact registered_live serves flagged plain (fresh r (List.mem_of_getElem? at_i)) (serving.steady r plain) read registered
  have known : ∀ r, (env.request r).Greedy → r ∈ ids → ∃ row, Live env m greedy record cancelled r (env.request r).promptIds row (w'.out r) := by
    intro r plain member
    obtain ⟨i, at_i⟩ := List.mem_iff_getElem?.mp member
    obtain ⟨_, row, -, found, -⟩ := each i r at_i
    exact ⟨row, live i r row at_i found plain⟩
  refine ⟨⟨rows ++ new, contexts ++ ids.map fun r => (env.request r).promptIds, aligned', ?_, ?_⟩, fun r plain => ?_,
    fun r plain absent => ?_⟩
  · unfold Caches at held₁ ⊢
    rwa [rest.cache]
  · refine List.rel_append ?_ ?_
    · refine List.forall₂_iff_get.mpr ⟨fits.length_eq, fun i h₁ h₂ => ⟨(fits.get h₁ h₂).starts, fun plain => ?_⟩⟩
      have apart : rows[i].req ∉ ids := by
        intro member
        have once := (List.nodup_append.mp distinct).2.2
        exact once _ (List.mem_map_of_mem (List.getElem_mem h₁)) _ member rfl
      have fit := fits.get h₁ h₂
      simp only [List.get_eq_getElem] at plain fit ⊢
      rw [others _ apart]
      exact fit.live plain
    · have count : new.length = ids.length := by rw [← names, List.length_map]
      refine List.forall₂_iff_get.mpr ⟨by rw [List.length_map, count], fun i h₁ h₂ => ?_⟩
      have inside : i < ids.length := count ▸ h₁
      have named : new[i].req = ids[i] := by
        have := congrArg (·[i]?) names
        simpa [h₁, inside] using this
      simp only [List.get_eq_getElem, List.getElem_map]
      refine ⟨by rw [named], fun plain => ?_⟩
      rw [named] at plain ⊢
      exact live i ids[i] new[i] (List.getElem?_eq_getElem inside) (List.getElem?_eq_getElem h₁) plain
  · by_cases member : r ∈ ids
    · obtain ⟨_, served⟩ := known r plain member
      exact served.steady
    · rw [others r member]
      exact serving.steady r plain
  · have reqs : w'.reqs = w.reqs ++ ids := by rw [aligned'.reqs, List.map_append, names, aligned.reqs]
    rw [reqs, List.mem_append, not_or] at absent
    rw [others r absent.2]
    exact serving.settled r plain absent.1

/-! ### Decoding -/

/-- The dummy rows have an empty context. -/
theorem padded_holds {contexts : List (List Int)} {c : BatchKVCache V} (holds : m.Holds env.kvQuant contexts c) (extra : Nat) :
    ∃ padded, (if 0 < extra then c.padDummies extra else .ok c) = .ok padded ∧
      m.Holds env.kvQuant (contexts ++ List.replicate extra []) padded := by
  split
  · exact holds.padDummies extra
  next none =>
    refine ⟨c, rfl, ?_⟩
    rw [show extra = 0 by omega, List.replicate_zero, List.append_nil]
    exact holds

/-- The dummy rows come and go; every row of the cache was fed its own token. -/
theorem stepped_holds (serves : env.Serves m greedy record) {contexts : List (List Int)} {fed : List Int} (some : contexts ≠ [])
    (count : fed.length = contexts.length) {c padded stepped : BatchKVCache V} {logits : KvArray L}
    (holds : m.Holds env.kvQuant contexts c)
    (pads : (if 0 < nextBucket contexts.length - contexts.length then
      c.padDummies (nextBucket contexts.length - contexts.length) else .ok c) = .ok padded)
    (forwarded : env.model.forward (fedTokens fed (nextBucket contexts.length)) padded = .ok (logits, stepped)) :
    m.Holds env.kvQuant (List.zipWith (fun context t => context ++ [t]) contexts fed)
        (if 0 < nextBucket contexts.length - contexts.length then stepped.filter (List.range contexts.length) else stepped) ∧
      ∀ b context t, contexts[b]? = .some context → fed[b]? = .some t →
        logits.get b 0 = m.logitsAfter env.kvQuant (context ++ [t]) := by
  have bucket := le_nextBucket contexts.length
  generalize nextBucket contexts.length = n at *
  obtain ⟨padded', ok, filled⟩ := padded_holds holds (n - contexts.length)
  obtain rfl := Except.ok.inj (pads.symm.trans ok)
  generalize same : List.replicate (n - contexts.length) ([] : List Int) = dummies at filled
  have size : dummies.length = n - contexts.length := by rw [← same, List.length_replicate]
  obtain ⟨logits', stepped', ok, -, holds', each⟩ := filled.forward
    (show (fed ++ List.replicate (n - contexts.length) 0).length = (contexts ++ dummies).length by simp [size, count])
    (show (fedTokens fed n).batch = (contexts ++ dummies).length by
      simp only [fedTokens, List.length_append, size]; omega)
    rfl (fun b => by simp only [fedTokens, count])
  rw [serves.model] at forwarded
  obtain ⟨rfl, rfl⟩ := Prod.mk.inj (Except.ok.inj (forwarded.symm.trans ok))
  rw [List.zipWith_append count.symm] at holds'
  have front : (List.zipWith (fun context t => context ++ [t]) contexts fed).length = contexts.length := by
    rw [List.length_zipWith, count, Nat.min_self]
  refine ⟨?_, fun b context t at_b at_b' => ?_⟩
  · split
    · have trimmed := holds'.filter (show List.range contexts.length ≠ [] by simpa using some) fun i member => by
        rw [List.length_append, front]
        exact Nat.lt_add_right _ (List.mem_range.mp member)
      have own : ((List.range contexts.length).map fun i => (List.zipWith (fun context t => context ++ [t]) contexts fed ++
          List.zipWith (fun context t => context ++ [t]) dummies (List.replicate (n - contexts.length) 0)).getD i []) =
          List.zipWith (fun context t => context ++ [t]) contexts fed := by
        apply List.ext_getElem
        · simp [count]
        · intro i h₁ h₂
          simp only [List.getElem_map, List.getElem_range]
          rw [List.getD_eq_getElem?_getD, List.getElem?_append_left h₂, List.getElem?_eq_getElem h₂, Option.getD_some]
      rwa [own] at trimmed
    next none =>
      have empty : dummies = [] := List.length_eq_zero_iff.mp (by omega)
      rw [empty, List.zipWith_nil_left, List.append_nil] at holds'
      exact holds'
  · have inside := (List.getElem?_eq_some_iff.mp at_b).1
    have inside' := (List.getElem?_eq_some_iff.mp at_b').1
    exact each b context t (by rw [List.getElem?_append_left inside, at_b]) (by rw [List.getElem?_append_left inside', at_b'])

theorem decodeStep_serving (serves : env.Serves m greedy record) (flagged : flags ⊆ cancelled) (serving : w.Serving env m greedy record cancelled)
    (distinct : w.reqs.Nodup) (some : w.reqs ≠ []) (ok : w.decodeStep env flags = .ok w') : w'.Serving env m greedy record cancelled := by
  obtain ⟨rows, contexts, aligned, held, fits⟩ := serving.rows
  rw [aligned.reqs] at distinct some
  obtain ⟨padded, stepped, logits, pads, forwarded, cache, ⟨rows', aligned', names, each⟩, others, -, -, -, -⟩ :=
    decodeStep_spec aligned distinct ok
  have count := fits.length_eq
  have feeds : w.feed.length = contexts.length := by rw [aligned.feed, List.length_map, count]
  have nonempty : contexts ≠ [] := by
    rintro rfl
    exact some (by rw [List.length_eq_zero_iff.mp count, List.map_nil])
  unfold Caches at held
  unfold paddedCache at pads
  cases cached : w.cache with
  | none =>
    rw [cached] at pads
    cases pads
  | some c =>
    rw [cached] at held pads
    rw [count] at pads forwarded cache
    obtain ⟨holds, reads⟩ := stepped_holds serves nonempty feeds held pads forwarded
    have live : ∀ (b : Nat) (row : Row K) (context : List Int), rows[b]? = .some row → contexts[b]? = .some context →
        (env.request row.req).Greedy → ∃ row', rows'[b]? = .some row' ∧
          Live env m greedy record cancelled row.req (context ++ [row.feed]) row' (w'.out row.req) := by
      intro b row context at_b at_b' plain
      obtain ⟨row', found, decoded⟩ := each b row at_b
      obtain ⟨inside, rfl⟩ := List.getElem?_eq_some_iff.mp at_b
      obtain ⟨inside', rfl⟩ := List.getElem?_eq_some_iff.mp at_b'
      have fit := fits.get inside inside'
      simp only [List.get_eq_getElem] at fit
      refine ⟨row', found, decoded_live serves flagged plain (fit.live plain) rfl ?_ decoded⟩
      exact reads b _ _ at_b' (by rw [aligned.feed, List.getElem?_map, at_b]; rfl)
    have names' : ∀ r, (env.request r).Greedy → r ∈ rows.map Row.req → ∃ row context, Live env m greedy record cancelled r context row (w'.out r) := by
      intro r plain member
      obtain ⟨row, among, rfl⟩ := List.mem_map.mp member
      obtain ⟨b, at_b⟩ := List.mem_iff_getElem?.mp among
      have inside : b < contexts.length := count ▸ (List.getElem?_eq_some_iff.mp at_b).1
      obtain ⟨row', -, served⟩ := live b row contexts[b] at_b (List.getElem?_eq_getElem inside) plain
      exact ⟨row', _, served⟩
    refine ⟨⟨rows', List.zipWith (fun context t => context ++ [t]) contexts w.feed, aligned', ?_, ?_⟩, fun r plain => ?_,
      fun r plain absent => ?_⟩
    · unfold Caches
      rw [cache]
      exact holds
    · have size : rows'.length = rows.length := by
        have := congrArg List.length names
        simpa using this
      refine List.forall₂_iff_get.mpr ⟨by rw [List.length_zipWith, feeds, Nat.min_self, size, count], fun b h₁ h₂ => ?_⟩
      have inside : b < rows.length := size ▸ h₁
      have inside' : b < contexts.length := count ▸ inside
      have named : rows'[b].req = rows[b].req := by
        have := congrArg (·[b]?) names
        simpa [h₁, inside] using this
      have feed : w.feed[b]? = .some rows[b].feed := by rw [aligned.feed, List.getElem?_map, List.getElem?_eq_getElem inside]; rfl
      obtain ⟨_, fed⟩ := List.getElem?_eq_some_iff.mp feed
      have fit := fits.get inside inside'
      simp only [List.get_eq_getElem, List.getElem_zipWith, fed] at fit ⊢
      refine ⟨by rw [named]; exact fit.starts.trans (List.prefix_append _ _), fun plain => ?_⟩
      rw [named] at plain ⊢
      obtain ⟨row', found, served⟩ := live b rows[b] contexts[b] (List.getElem?_eq_getElem inside)
        (List.getElem?_eq_getElem inside') plain
      obtain rfl := Option.some.inj ((List.getElem?_eq_getElem h₁).symm.trans found)
      exact served
    · by_cases member : r ∈ rows.map Row.req
      · obtain ⟨_, _, served⟩ := names' r plain member
        exact served.steady
      · rw [others r member]
        exact serving.steady r plain
    · rw [aligned'.reqs, names, ← aligned.reqs] at absent
      rw [others r (aligned.reqs ▸ absent)]
      exact serving.settled r plain absent

/-! ### Eviction -/

/-- The contexts of the rows an eviction leaves. -/
def evictedContexts (rows : List (Row K)) (contexts : List (List Int)) : List (List Int) :=
  if rows.any Row.finished then (kept rows).map fun p => contexts.getD p.2 [] else contexts

theorem evicted_fits {out out' : Nat → Output G} {contexts : List (List Int)}
    (fits : List.Forall₂ (Fits env m greedy record cancelled out) rows contexts)
    (own : ∀ row ∈ rows, row.finished = false → out' row.req = out row.req) :
    List.Forall₂ (Fits env m greedy record cancelled out') (evicted rows) (evictedContexts rows contexts) := by
  unfold evicted evictedContexts
  split
  · refine List.forall₂_iff_get.mpr ⟨by simp [survivors], fun i h₁ h₂ => ?_⟩
    have inside : i < (kept rows).length := by simpa using h₂
    obtain ⟨found, unfinished⟩ := kept_getElem (show (kept rows)[i]? = some ((kept rows)[i].1, (kept rows)[i].2) by
      rw [List.getElem?_eq_getElem inside])
    obtain ⟨at_k, same⟩ := List.getElem?_eq_some_iff.mp found
    have there : (kept rows)[i].2 < contexts.length := fits.length_eq ▸ at_k
    have fit := fits.get at_k there
    simp only [List.get_eq_getElem, same] at fit
    simp only [survivors, List.get_eq_getElem, List.getElem_map, List.getElem_zipIdx, Nat.zero_add,
      ← List.getElem_eq_getD (h := there)]
    split
    · refine ⟨fit.starts, fun plain => ?_⟩
      rw [own _ (List.mem_of_getElem? found) unfinished]
      exact (fit.live plain).forget
    · refine ⟨fit.starts, fun plain => ?_⟩
      rw [own _ (List.mem_of_getElem? found) unfinished]
      exact fit.live plain
  next none =>
    refine List.forall₂_iff_get.mpr ⟨fits.length_eq, fun i h₁ h₂ => ⟨(fits.get h₁ h₂).starts, fun plain => ?_⟩⟩
    have unfinished : rows[i].finished = false := by
      have := List.any_eq_false.mp (Bool.eq_false_iff.mpr none) rows[i] (List.getElem_mem h₁)
      simpa using this
    have fit := fits.get h₁ h₂
    simp only [List.get_eq_getElem] at plain fit ⊢
    rw [own _ (List.getElem_mem h₁) unfinished]
    exact fit.live plain

theorem evicted_caches {contexts : List (List Int)} (held : w.Caches env m contexts) (count : rows.length = contexts.length)
    (cache : w'.cache = (if rows.any Row.finished then
      (if (kept rows).map Prod.snd = [] then none else w.cache.map (·.filter ((kept rows).map Prod.snd))) else w.cache)) :
    w'.Caches env m (evictedContexts rows contexts) := by
  unfold Caches at held ⊢
  unfold evictedContexts
  rw [cache]
  by_cases any : rows.any Row.finished = true
  · rw [if_pos any, if_pos any]
    by_cases none : (kept rows).map Prod.snd = []
    · rw [if_pos none]
      exact congrArg (List.map fun p => contexts.getD p.2 []) (List.map_eq_nil_iff.mp none)
    · rw [if_neg none]
      cases cached : w.cache with
      | none =>
        rw [cached] at held
        -- without a cache there is no row to keep
        obtain rfl := List.length_eq_zero_iff.mp (count.trans (by rw [held]; rfl))
        simp [kept] at none
      | some c =>
        rw [cached] at held
        have trimmed := held.filter (show (kept rows).map Prod.snd ≠ [] from none) fun i member => by
          obtain ⟨⟨row, k⟩, among, rfl⟩ := List.mem_map.mp member
          obtain ⟨i, at_i⟩ := List.mem_iff_getElem?.mp among
          rw [← count]
          exact (List.getElem?_eq_some_iff.mp (kept_getElem at_i).1).1
        rw [List.map_map] at trimmed
        exact trimmed
  · rw [if_neg any, if_neg any]
    exact held

theorem evictFinished_serving (serving : w.Serving env m greedy record cancelled) (distinct : w.reqs.Nodup) :
    (w.evictFinished env).Serving env m greedy record cancelled := by
  obtain ⟨rows, contexts, aligned, held, fits⟩ := serving.rows
  rw [aligned.reqs] at distinct
  obtain ⟨aligned', own, others, cache, -, -, -⟩ := evictFinished_spec env aligned distinct
  generalize w.evictFinished env = w' at *
  have live : ∀ row ∈ rows, (env.request row.req).Greedy → ∃ context, Live env m greedy record cancelled row.req context row (w.out row.req) := by
    intro row member plain
    obtain ⟨i, inside, rfl⟩ := List.mem_iff_getElem.mp member
    have fit := fits.get inside (fits.length_eq ▸ inside)
    simp only [List.get_eq_getElem] at fit
    exact ⟨_, fit.live plain⟩
  refine ⟨⟨evicted rows, evictedContexts rows contexts, aligned', evicted_caches held fits.length_eq cache,
    evicted_fits fits fun row member unfinished => ?_⟩, fun r plain => ?_, fun r plain absent closed => ?_⟩
  · rw [own row member, unfinished]
    rfl
  · by_cases member : r ∈ rows.map Row.req
    · obtain ⟨row, among, rfl⟩ := List.mem_map.mp member
      have steady := serving.steady row.req plain
      rw [own row among]
      split
      · exact ⟨steady.grammar, steady.logprobs, fun none => by simp [Output.close] at none⟩
      · exact steady
    · rw [others r member]
      exact serving.steady r plain
  · rw [aligned'.reqs, evicted_columns rows Row.req fun _ => rfl] at absent
    by_cases member : r ∈ rows.map Row.req
    · obtain ⟨row, among, rfl⟩ := List.mem_map.mp member
      have done : row.finished = true := by
        by_contra going
        exact absent (List.mem_map_of_mem (List.mem_filter.mpr ⟨among, by simpa using going⟩))
      obtain ⟨context, served⟩ := live row among plain
      obtain ⟨-, ended⟩ := served.state.resolve_left fun unfinished => by rw [done] at unfinished; exact Bool.noConfusion unfinished.1
      rw [own row among, if_pos done]
      exact ⟨ended, by simp [Output.close, served.closes]⟩
    · rw [others r member] at closed ⊢
      refine serving.settled r plain ?_ closed
      rwa [aligned.reqs]

/-! ### Taking requests in -/

/-- Every unit of the queue was fed a part of its requests' prompts. -/
def Units (env : WorkerEnv V L K G I) (m : DecoderModel V H Q L) (w : Worker V K G) : Prop :=
  ∀ p ∈ w.pending, p.Good m env.kvQuant (p.reqs.map fun r => (env.request r).promptIds)

/-- The prefix matches found for `ids` hold the K and V that running the prompts would give. -/
def TrueMatches (env : WorkerEnv V L K G I) (m : DecoderModel V H Q L) (w : Worker V K G) (ids : List Nat) : Prop :=
  ∀ p ∈ (splitPrefix env w ids).1.warm, ∃ bs, HoldsPrefix m env.kvQuant bs p.2.blocks p.2.tokens (env.request p.1).promptIds

/-- Embeddings and images are nobody's row: a text model fails what has images. -/
theorem dispatch_serving (serves : env.Serves m greedy record) (serving : w.Serving env m greedy record cancelled)
    (units : w.Units env m) : (dispatch env flags w ids).1.Serving env m greedy record cancelled ∧ (dispatch env flags w ids).1.Units env m := by
  induction ids generalizing w with
  | nil => exact ⟨serving, units⟩
  | cons r rest ih =>
    unfold dispatch
    split
    next embeds =>
      refine ih (serving.frame (fun aligned => aligned.congr rfl rfl rfl rfl rfl rfl) rfl fun r' plain => ?_) units
      exact Function.update_of_ne (fun same => by rw [← same, plain.embedding] at embeds; cases embeds) _ _
    split
    next images =>
      have failed : w.admitMultimodal env flags r = w.fail r .prepare := by
        rw [admitMultimodal, multimodalPrompt, serves.text]
        rfl
      rw [failed]
      refine ih (serving.frame (fun aligned => aligned.congr rfl rfl rfl rfl rfl rfl) rfl fun r' plain => ?_) units
      exact Function.update_of_ne (fun same => by rw [← same, plain.multimodal] at images; cases images) _ _
    · exact ih serving units

abbrev Counted (hand : List Nat) (w : Worker V K G) : Prop := Tracked (fun _ _ => True) hand w

omit [Slot V] in
theorem Tracked.joining (tracked : Counted (ids ++ hand) w) : (w.reqs ++ ids).Nodup ∧ ∀ r ∈ ids, Untouched (w.out r) := by
  obtain ⟨rows, aligned, -⟩ := tracked.rows
  refine ⟨aligned.reqs ▸ Tracked.distinct tracked aligned, fun r member => tracked.fresh r ?_⟩
  simp [member]

theorem admitCold_serving (serves : env.Serves m greedy record) (flagged : flags ⊆ cancelled) (serving : w.Serving env m greedy record cancelled)
    (tracked : Counted (ids ++ hand) w) (supplied : w.Supplied env) (some : ids ≠ [])
    (texts : ∀ r ∈ ids, (env.request r).isMultimodal = false) (ok : w.admitCold env flags ids = .ok w') :
    w'.Serving env m greedy record cancelled := by
  have same : (ids.map fun r => (w.out r).promptIds) = ids.map fun r => (env.request r).promptIds :=
    List.map_congr_left fun r member => supplied.prompts r (texts r member)
  unfold admitCold at ok
  obtain ⟨pr, prefilled, ok⟩ := bind_ok ok
  obtain ⟨w₁, adopted, registered⟩ := bind_ok ok
  obtain ⟨distinct, fresh⟩ := Tracked.joining tracked
  obtain ⟨r, ran, filled⟩ := @prefill_spec _ _ _ _ _ m env.kvQuant (ids.map fun r => (env.request r).promptIds) _ _ 0
    serves.step (show 0 < prefillStepSize by decide) (by simpa using some) fun p member => by
      obtain ⟨r, among, rfl⟩ := List.mem_map.mp member
      exact serves.prompts r (texts r among)
  rw [same, serves.model] at prefilled
  obtain rfl := Except.ok.inj (prefilled.symm.trans ran)
  exact joined_serving serves flagged serving distinct fresh filled adopted registered

theorem admitWarm_serving (serves : env.Serves m greedy record) (flagged : flags ⊆ cancelled) (serving : w.Serving env m greedy record cancelled) {r : Nat}
    (tracked : Counted (r :: hand) w) (supplied : w.Supplied env) (text : (env.request r).isMultimodal = false)
    {found : Match V} (holds : ∃ bs, HoldsPrefix m env.kvQuant bs found.blocks found.tokens (env.request r).promptIds)
    (ok : w.admitWarm env flags r found = .ok w') : w'.Serving env m greedy record cancelled := by
  unfold admitWarm at ok
  obtain ⟨pr, prefilled, ok⟩ := bind_ok ok
  obtain ⟨w₁, adopted, registered⟩ := bind_ok ok
  obtain ⟨bs, holds⟩ := holds
  obtain ⟨distinct, fresh⟩ := Tracked.joining (show Counted ([r] ++ hand) w from tracked)
  obtain ⟨warm, ran, filled⟩ := prefillWithPrefix_spec (m := m) serves.step (show 0 < prefillStepSize by decide) holds
  rw [supplied.prompts r text, serves.model] at prefilled
  obtain rfl := Except.ok.inj (prefilled.symm.trans ran)
  exact joined_serving serves flagged serving distinct fresh filled adopted registered

theorem admitWarms_serving (serves : env.Serves m greedy record) (flagged : flags ⊆ cancelled) (serving : w.Serving env m greedy record cancelled)
    {warm : List (Nat × Match V)} (tracked : Counted (warm.map Prod.fst ++ hand) w) (supplied : w.Supplied env)
    (texts : ∀ p ∈ warm, (env.request p.1).isMultimodal = false)
    (holds : ∀ p ∈ warm, ∃ bs, HoldsPrefix m env.kvQuant bs p.2.blocks p.2.tokens (env.request p.1).promptIds)
    (ok : warm.foldlM (fun w p => w.admitWarm env flags p.1 p.2) w = .ok w') : w'.Serving env m greedy record cancelled := by
  induction warm generalizing w with
  | nil =>
    obtain rfl := pure_ok ok
    exact serving
  | cons p warm ih =>
    rw [List.foldlM_cons] at ok
    obtain ⟨w₁, admitted, ok⟩ := bind_ok ok
    obtain ⟨text, texts⟩ := List.forall_mem_cons.mp texts
    obtain ⟨held, holds⟩ := List.forall_mem_cons.mp holds
    exact ih (admitWarm_serving serves flagged serving tracked supplied text held admitted)
      (admitWarm_tracked EngineState.anyLaw tracked admitted).1 (supplied.keeps (keeps_admitWarm admitted)) texts holds ok

theorem admitGroup_serving (serves : env.Serves m greedy record) (flagged : flags ⊆ cancelled) (serving : w.Serving env m greedy record cancelled)
    (tracked : Counted ids w) (supplied : w.Supplied env) (texts : ∀ r ∈ ids, (env.request r).isMultimodal = false)
    (holds : w.TrueMatches env m ids) (ok : w.admitGroup env flags ids = .ok w') : w'.Serving env m greedy record cancelled := by
  unfold admitGroup at ok
  unfold TrueMatches at holds
  rcases ran : splitPrefix env w ids with ⟨split, w₁⟩
  rw [ran] at ok holds
  obtain ⟨⟨pool, rfl⟩, order⟩ := splitPrefix_spec ran
  have among : ∀ r ∈ split.warm.map Prod.fst ++ split.cold, (env.request r).isMultimodal = false := fun r member =>
    texts r (order.mem_iff.mp member)
  have warmTexts : ∀ p ∈ split.warm, (env.request p.1).isMultimodal = false := fun p member =>
    among p.1 (List.mem_append_left _ (List.mem_map_of_mem member))
  have order : ids.Perm (split.cold ++ split.warm.map Prod.fst) := order.symm.trans List.perm_append_comm
  have serving₁ := serving.pooled w.pending pool
  have tracked₁ := (pool_tracked (Q := fun _ _ => True) (tracked.perm order) pool).1
  have supplied₁ : Worker.Supplied env { w with prefixPool := pool } := ⟨supplied.prompts, supplied.units, supplied.chunked⟩
  dsimp only at ok holds
  split at ok
  next none =>
    rw [none, List.nil_append, ← List.append_nil (split.warm.map Prod.fst)] at tracked₁
    exact admitWarms_serving serves flagged serving₁ tracked₁ supplied₁ warmTexts holds ok
  next some =>
    obtain ⟨w₂, cold, warm⟩ := bind_ok ok
    have serving₂ := admitCold_serving serves flagged serving₁ tracked₁ supplied₁ some
      (fun r member => among r (List.mem_append_right _ member)) cold
    have tracked₂ := (admitCold_tracked EngineState.anyLaw tracked₁ cold).1
    rw [← List.append_nil (split.warm.map Prod.fst)] at tracked₂
    exact admitWarms_serving serves flagged serving₂ tracked₂ (supplied₁.keeps (keeps_admitCold cold)) warmTexts holds warm

/-- Requests are queued: each warm one behind its prefix, and the cold ones together. -/
theorem enqueueAdmissions_serving (serves : env.Serves m greedy record) (serving : w.Serving env m greedy record cancelled)
    (units : w.Units env m) (supplied : w.Supplied env) (texts : ∀ r ∈ ids, (env.request r).isMultimodal = false)
    (holds : w.TrueMatches env m ids) (ok : w.enqueueAdmissions env ids = .ok w') :
    w'.Serving env m greedy record cancelled ∧ w'.Units env m := by
  unfold enqueueAdmissions at ok
  unfold TrueMatches at holds
  rcases ran : splitPrefix env w ids with ⟨split, w₁⟩
  rw [ran] at ok holds
  obtain ⟨⟨pool, rfl⟩, order⟩ := splitPrefix_spec ran
  have among : ∀ r ∈ split.warm.map Prod.fst ++ split.cold, (env.request r).isMultimodal = false := fun r member =>
    texts r (order.mem_iff.mp member)
  dsimp only at ok holds
  obtain ⟨warm, built, ok⟩ := bind_ok ok
  have warmUnits : ∀ u ∈ warm, u.Good m env.kvQuant (u.reqs.map fun r => (env.request r).promptIds) := by
    intro u member
    obtain ⟨i, at_i⟩ := List.mem_iff_getElem?.mp member
    have inside : i < split.warm.length := mapM_length built ▸ (List.getElem?_eq_some_iff.mp at_i).1
    have listed : split.warm[i]? = some split.warm[i] := List.getElem?_eq_getElem inside
    obtain ⟨u', at_i', made⟩ := mapM_getElem built listed
    obtain rfl : u' = u := Option.some.inj (at_i'.symm.trans at_i)
    obtain ⟨bs, held⟩ := holds _ (List.getElem_mem inside)
    obtain ⟨u, ok', reqs, good⟩ := PendingPrefill.warm_good (m := m) (q := env.kvQuant) split.warm[i].1 serves.step held
    rw [supplied.prompts _ (among _ (List.mem_append_left _ (List.mem_map_of_mem (List.getElem_mem inside)))), serves.model] at made
    obtain rfl := Except.ok.inj (made.symm.trans ok')
    rw [reqs]
    exact good
  split at ok
  · obtain rfl := pure_ok ok
    exact ⟨serving.pooled _ _, fun u member => (List.mem_append.mp member).elim (units u) (warmUnits u)⟩
  next some =>
    obtain rfl := pure_ok ok
    refine ⟨serving.pooled _ _, fun u member => ?_⟩
    rcases List.mem_append.mp member with member | last
    · exact (List.mem_append.mp member).elim (units u) (warmUnits u)
    · obtain rfl := List.mem_singleton.mp last
      have same : (split.cold.map fun r => (w.out r).promptIds) = split.cold.map fun r => (env.request r).promptIds :=
        List.map_congr_left fun r member => supplied.prompts r (among r (List.mem_append_right _ member))
      rw [same, serves.model]
      have words : ∀ p ∈ split.cold.map fun r => (env.request r).promptIds, p ≠ [] := by
        intro p member
        obtain ⟨r, listed, rfl⟩ := List.mem_map.mp member
        exact serves.prompts r (among r (List.mem_append_right _ listed))
      have good := PendingPrefill.cold_good (m := m) (q := env.kvQuant) split.cold serves.step (by simpa using some) words
      exact good

theorem admitIncoming_serving (serves : env.Serves m greedy record) (flagged : flags ⊆ cancelled) (serving : w.Serving env m greedy record cancelled)
    (units : w.Units env m) (tracked : Counted ids w) (supplied : w.Supplied env)
    (holds : (dispatch env flags w ids).1.TrueMatches env m (dispatch env flags w ids).2)
    (ok : w.admitIncoming env flags ids = .ok w') : w'.Serving env m greedy record cancelled ∧ w'.Units env m := by
  obtain ⟨serving₁, units₁⟩ := @dispatch_serving _ _ _ _ _ _ _ _ _ _ _ _ _ cancelled flags ids serves serving units
  obtain ⟨kept, among⟩ := @dispatch_spec _ _ _ _ _ env w flags _ ids
  unfold admitIncoming at ok
  rcases ran : dispatch env flags w ids with ⟨w₁, gen⟩
  rw [ran] at ok holds serving₁ units₁ kept among
  rw [← List.append_nil ids] at tracked
  have tracked₁ := (dispatch_tracked EngineState.anyLaw tracked ran).1
  rw [List.append_nil] at tracked₁
  have texts : ∀ r ∈ gen, (env.request r).isMultimodal = false := fun r member => (among r member).2.2
  dsimp only at ok holds serving₁ units₁ kept
  split at ok
  · obtain rfl := Except.ok.inj ok
    exact ⟨serving₁, units₁⟩
  split at ok
  · exact enqueueAdmissions_serving serves serving₁ units₁ (supplied.keeps kept) texts holds ok
  · refine ⟨admitGroup_serving serves flagged serving₁ tracked₁ (supplied.keeps kept) texts holds ok, ?_⟩
    unfold Units
    rw [(keeps_admitGroup ok).pending]
    exact units₁

theorem advanceChunkedPrefill_serving (serves : env.Serves m greedy record) (flagged : flags ⊆ cancelled) (serving : w.Serving env m greedy record cancelled)
    (units : w.Units env m) (tracked : Counted [] w) (supplied : w.Supplied env)
    (ok : w.advanceChunkedPrefill env flags = .ok w') : w'.Serving env m greedy record cancelled ∧ w'.Units env m := by
  unfold advanceChunkedPrefill at ok
  split at ok
  · obtain rfl := Except.ok.inj ok
    exact ⟨serving, units⟩
  next p rest queue =>
    have chunked := supplied.chunked (by rw [queue]; exact List.cons_ne_nil _ _)
    have all : ∀ p ∈ w.pending, p.Good m env.kvQuant (p.reqs.map fun r => (env.request r).promptIds) := units
    rw [queue] at all
    obtain ⟨good, goods⟩ := List.forall_mem_cons.mp all
    obtain ⟨⟨p', last⟩, advanced, ok⟩ := bind_ok ok
    obtain ⟨u, last', ran, reqs, -, outcome⟩ := PendingPrefill.advance_spec (m := m) chunked good
    rw [serves.model] at advanced
    obtain ⟨rfl, rfl⟩ := Prod.mk.inj (Except.ok.inj (advanced.symm.trans ran))
    dsimp only at ok
    rcases outcome with ⟨rfl, good', -, -⟩ | ⟨logits, rfl, filled⟩
    · obtain rfl := pure_ok ok
      rw [← reqs] at good'
      exact ⟨serving.pooled _ _, List.forall_mem_cons.mpr ⟨good', goods⟩⟩
    · dsimp only at ok
      obtain ⟨w₁, adopted, ok⟩ := bind_ok ok
      obtain ⟨w₂, registered, ok⟩ := bind_ok ok
      obtain rfl := pure_ok ok
      have front : w.pendingReqs = p'.reqs ++ rest.flatMap (·.reqs) := by rw [pendingReqs, queue, List.flatMap_cons, reqs]
      have distinct : (w.reqs ++ p'.reqs).Nodup := by
        rw [List.nodup_iff_count_le_one]
        intro r
        have once := tracked.once r
        simp only [live, front, List.count_append] at once ⊢
        omega
      have fresh : ∀ r ∈ p'.reqs, Untouched (w.out r) := fun r member => tracked.fresh r (by rw [front]; simp [member])
      rw [← reqs] at filled
      have served := joined_serving serves flagged (serving.pooled (p' :: rest) w.prefixPool) distinct fresh filled adopted registered
      exact ⟨served.pooled rest w₂.prefixPool, goods⟩

end Worker

end Mlxforge
