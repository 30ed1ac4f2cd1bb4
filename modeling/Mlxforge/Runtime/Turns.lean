import Mlxforge.Runtime.Lifecycle

/-!
The steps of a loop turn after the admission: a prefill chunk, an eviction and a decode step each keep `Tracked`.
-/

namespace Mlxforge

variable {V L K G I : Type}

namespace Worker

variable {env : WorkerEnv V L K G I} {hand flags : List Nat} {w w' : Worker V K G} {P : Output G → Row K → Prop}
  {Q : Nat → Output G → Prop} {rows : List (Row K)}

/-- An eviction that removes a row removes the one in front. -/
def FrontFirst (w : Worker V K G) : Prop := w.finished.any id = true → w.finished.head? = some true

/-- Rows lose their history where they stay in place ahead of an evicted one, so `P` must do without it, or no row does
so. -/
def Forgets (P : Output G → Row K → Prop) (w : Worker V K G) : Prop :=
  (∀ {o row}, P o row → P o { row with history := [] }) ∨ w.FrontFirst

section
variable [Slot V]

omit [Slot V] in
theorem advance_unit {p p' : PendingPrefill Nat V} {last : Option (List L)}
    (ok : p.advance env.model env.prefillChunk = .ok (p', last)) : p'.reqs = p.reqs ∧ p'.cache.batch = p.cache.batch := by
  unfold PendingPrefill.advance at ok
  obtain ⟨⟨logits, cache⟩, forwarded, ok⟩ := bind_ok ok
  obtain ⟨rfl, -⟩ := Prod.mk.inj (pure_ok ok)
  exact ⟨rfl, env.model.forward_batch forwarded⟩

theorem advanceChunkedPrefill_tracked (law : RowLaw env P Q) (tracked : Tracked P hand w)
    (ok : w.advanceChunkedPrefill env flags = .ok w') : Tracked P hand w' ∧ Moves Q hand hand w w' := by
  unfold advanceChunkedPrefill at ok
  split at ok
  · obtain rfl := Except.ok.inj ok
    exact ⟨tracked, .of_perm (.refl _)⟩
  next p rest queue =>
    obtain ⟨⟨p', last⟩, advanced, ok⟩ := bind_ok ok
    obtain ⟨reqs, batch⟩ := advance_unit advanced
    have size : p'.cache.batch = p'.reqs.length := by
      rw [batch, reqs]
      exact tracked.units p (by rw [queue]; exact List.mem_cons_self)
    obtain ⟨rows, aligned, old⟩ := tracked.rows
    have front : w.pendingReqs = p'.reqs ++ rest.flatMap (·.reqs) := by rw [pendingReqs, queue, List.flatMap_cons, reqs]
    dsimp only at ok
    split at ok
    · obtain rfl := pure_ok ok
      have same : pendingReqs { w with pending := p' :: rest } = w.pendingReqs := by rw [front]; rfl
      have count : ∀ r, (live hand { w with pending := p' :: rest }).count r = (live hand w).count r := by
        intro r
        simp only [live, same]
      refine ⟨⟨fun r => (count r).trans_le (tracked.once r), ?_, ⟨rows, aligned.congr rfl rfl rfl rfl rfl rfl, old⟩,
        tracked.cache, ?_⟩, .of_count count (fun _ member => member) fun _ _ => rfl⟩
      · intro r member
        rw [same] at member
        exact tracked.fresh r member
      · intro u member
        rcases List.mem_cons.mp member with rfl | member
        · exact size
        · exact tracked.units u (by rw [queue]; exact List.mem_cons_of_mem _ member)
    next last =>
      obtain ⟨w₁, adopted, ok⟩ := bind_ok ok
      obtain ⟨w₂, registered, ok⟩ := bind_ok ok
      obtain rfl := pure_ok ok
      -- the unit's requests step out of the queue into the hand
      have order : ∀ r, (live (p'.reqs ++ hand) { w with pending := rest }).count r = (live hand w).count r := by
        intro r
        simp only [live, front, List.count_append]
        rw [show pendingReqs { w with pending := rest } = rest.flatMap (·.reqs) from rfl]
        omega
      have tracked₁ : Tracked P (p'.reqs ++ hand) { w with pending := rest } := by
        refine ⟨fun r => (order r).trans_le (tracked.once r), ?_, ⟨rows, aligned.congr rfl rfl rfl rfl rfl rfl, old⟩,
          tracked.cache, fun u member => tracked.units u (by rw [queue]; exact List.mem_cons_of_mem _ member)⟩
        intro r member
        refine tracked.fresh r ?_
        rw [front]
        have member : r ∈ (p'.reqs ++ hand) ++ rest.flatMap (·.reqs) := member
        simp only [List.mem_append] at member ⊢
        tauto
      have moves₁ : Moves Q hand (p'.reqs ++ hand) w { w with pending := rest } :=
        .of_count order (fun _ member => member) fun _ _ => rfl
      obtain ⟨tracked', moves'⟩ := joined_tracked (w := { w with pending := rest }) (q := p' :: rest) law tracked₁ size
        adopted registered
      exact ⟨tracked', moves₁.trans moves'⟩

/-! ### Decoding -/

theorem decodeStep_tracked (law : RowLaw env P Q) (tracked : Tracked P hand w) (ok : w.decodeStep env flags = .ok w') :
    Tracked P hand w' ∧ Moves Q hand hand w w' := by
  obtain ⟨rows, aligned, old⟩ := tracked.rows
  have distinct : (rows.map Row.req).Nodup := by
    rw [← aligned.reqs, List.nodup_iff_count_le_one]
    intro r
    have once := tracked.once r
    simp only [live, List.count_append] at once
    omega
  obtain ⟨padded, stepped, logits, pads, forwarded, cache, ⟨rows', aligned', names, each⟩, others, owners, pending, -, errors⟩ :=
    decodeStep_spec aligned distinct ok
  have reqs : w'.reqs = w.reqs := by rw [aligned'.reqs, names, aligned.reqs]
  have lives : live hand w' = live hand w := by simp only [live, pendingReqs, pending, reqs]
  have apart : ∀ r ∈ hand ++ w.pendingReqs, w'.out r = w.out r := by
    intro r member
    refine others r fun among => ?_
    rw [← aligned.reqs] at among
    have once := tracked.once r
    have here := List.count_pos_iff.mpr member
    have there := List.count_pos_iff.mpr among
    simp only [live, List.count_append] at once here
    omega
  refine ⟨⟨fun r => lives ▸ tracked.once r, ?_, ⟨rows', aligned', ?_⟩, ?_, ?_⟩,
    .of_count (fun r => by rw [lives]) (fun e member => errors ▸ member) ?_⟩
  · intro r member
    have member : r ∈ hand ++ w.pendingReqs := by simpa [pendingReqs, pending] using member
    rw [apart r member]
    exact tracked.fresh r member
  · intro row' member
    obtain ⟨b, at_b⟩ := List.mem_iff_getElem?.mp member
    have lengths : rows.length = rows'.length := by
      have := congrArg List.length names
      simpa using this.symm
    have inside : b < rows.length := lengths ▸ (List.getElem?_eq_some_iff.mp at_b).1
    obtain ⟨row₁, found, decoded⟩ := each b rows[b] (List.getElem?_eq_getElem inside)
    obtain rfl := Option.some.inj (at_b.symm.trans found)
    obtain ⟨marked, holds⟩ := old rows[b] (List.getElem_mem inside)
    obtain ⟨same, -, reason⟩ := decoded.frame marked
    rw [same, Botched, errors]
    exact ⟨reason, fun whole => law.next (holds whole) decoded⟩
  · intro clean
    have before := tracked.cache (by rw [Clean, ← errors]; exact clean)
    unfold CacheOk at before ⊢
    rw [cache, owners, reqs]
    dsimp only
    have padding := pads
    unfold paddedCache at padding
    split at padding
    · cases padding
    next c held =>
      rw [held] at before
      obtain ⟨size, owned⟩ := before
      have sizes := env.model.forward_batch forwarded
      refine ⟨?_, owned⟩
      rw [aligned.length] at size ⊢
      split
      · rw [filter_batch, List.length_range]
      next none =>
        rw [if_neg none] at padding
        obtain rfl := Except.ok.inj padding
        exact sizes.trans size
  · intro p member
    exact tracked.units p (pending ▸ member)
  · intro r absent
    refine others r fun among => absent ?_
    rw [← aligned.reqs] at among
    simp [live, among]

/-! ### Eviction -/

omit [Slot V] in
/-- A row that stays is an unfinished one, perhaps without its history. -/
theorem mem_evicted {row : Row K} (aligned : w.Aligned rows) (member : row ∈ evicted rows) :
    ∃ row₀ ∈ rows, row₀.finished = false ∧ (row = row₀ ∨ (¬w.FrontFirst ∧ row = { row₀ with history := [] })) := by
  unfold evicted at member
  split at member
  next any =>
    by_cases front : w.FrontFirst
    · have head : (rows.head?.map Row.finished) = some true := by
        have := front (by rw [aligned.finished, List.any_map]; exact any)
        rwa [aligned.finished, List.head?_map] at this
      rw [survivors_front head, List.mem_filter] at member
      exact ⟨row, member.1, by simpa using member.2, .inl rfl⟩
    · rw [survivors, List.mem_map] at member
      obtain ⟨⟨⟨row₀, k⟩, i⟩, among, rfl⟩ := member
      have at_i : (kept rows)[i]? = some (row₀, k) := List.mem_zipIdx_iff_getElem?.mp among
      obtain ⟨found, unfinished⟩ := kept_getElem at_i
      refine ⟨row₀, List.mem_of_getElem? found, unfinished, ?_⟩
      dsimp only
      split
      · exact .inr ⟨front, rfl⟩
      · exact .inl rfl
  next none =>
    refine ⟨row, member, ?_, .inl rfl⟩
    have all := List.any_eq_false.mp (Bool.eq_false_iff.mpr none) row member
    simpa using all

/-- The cache and its owners are compacted as the rows are. -/
theorem evicted_cache (aligned : w.Aligned rows) (before : w.CacheOk)
    (cache : w'.cache = (if rows.any Row.finished then
      (if (kept rows).map Prod.snd = [] then none else w.cache.map (·.filter ((kept rows).map Prod.snd))) else w.cache))
    (owners : w'.owners = (if rows.any Row.finished then
      (if (kept rows).map Prod.snd = [] then [] else gather 0 w.owners ((kept rows).map Prod.snd)) else w.owners))
    (reqs : w'.reqs = (rows.filter fun row => !row.finished).map Row.req) : w'.CacheOk := by
  have names : w'.reqs = (kept rows).map fun p => p.1.req := by
    rw [reqs, ← kept_map_fst, List.map_map]
    rfl
  unfold CacheOk at before ⊢
  rw [aligned.reqs] at before
  by_cases any : rows.any Row.finished = true
  · rw [if_pos any] at cache owners
    by_cases none : (kept rows).map Prod.snd = []
    · rw [if_pos none] at cache
      rw [cache, names, List.map_eq_nil_iff.mp none]
      rfl
    · rw [if_neg none] at cache owners
      cases held : w.cache with
      | none =>
        rw [held] at before
        obtain rfl := List.map_eq_nil_iff.mp before
        exact absurd rfl none
      | some c =>
        rw [held] at before cache
        rw [cache, owners, names, before.2]
        refine ⟨by rw [filter_batch, List.length_map, List.length_map], ?_⟩
        rw [gather, List.map_map]
        refine List.map_congr_left fun p member => ?_
        obtain ⟨i, at_i⟩ := List.mem_iff_getElem?.mp member
        have found : rows[p.2]? = some p.1 := (kept_getElem at_i).1
        simp [List.getD_eq_getElem?_getD, found]
  · rw [if_neg any] at cache owners
    have all : rows.filter (fun row => !row.finished) = rows := by
      rw [List.filter_eq_self]
      intro row member
      have := List.any_eq_false.mp (Bool.eq_false_iff.mpr any) row member
      simpa using this
    rw [cache, owners, reqs, all]
    exact before

theorem evictFinished_tracked (law : RowLaw env P Q) (tracked : Tracked P hand w) (forgets : Forgets P w) :
    Tracked P hand (w.evictFinished env) ∧ Moves Q hand hand w (w.evictFinished env) := by
  obtain ⟨rows, aligned, old⟩ := tracked.rows
  have distinct : (rows.map Row.req).Nodup := by
    rw [← aligned.reqs, List.nodup_iff_count_le_one]
    intro r
    have once := tracked.once r
    simp only [live, List.count_append] at once
    omega
  obtain ⟨aligned', own, others, cache, owners, pending, errors⟩ := evictFinished_spec env aligned distinct
  generalize w.evictFinished env = w' at *
  have reqs : w'.reqs = (rows.filter fun row => !row.finished).map Row.req := by
    rw [aligned'.reqs, evicted_columns rows Row.req fun _ => rfl]
  have fewer : ∀ r, (live hand w').count r ≤ (live hand w).count r := by
    intro r
    have sub : w'.reqs.Sublist w.reqs := by
      rw [reqs, aligned.reqs]
      exact List.filter_sublist.map _
    have := sub.count_le r
    simp only [live, pendingReqs, pending, List.count_append]
    omega
  have apart : ∀ r ∈ hand ++ w.pendingReqs, r ∉ rows.map Row.req := by
    intro r member among
    rw [← aligned.reqs] at among
    have once := tracked.once r
    have here := List.count_pos_iff.mpr member
    have there := List.count_pos_iff.mpr among
    simp only [live, List.count_append] at once here
    omega
  have unbotched : ∀ r, w'.Botched r ↔ w.Botched r := fun r => by rw [Botched, Botched, errors]
  refine ⟨⟨fun r => (fewer r).trans (tracked.once r), ?_, ⟨evicted rows, aligned', ?_⟩, ?_, ?_⟩,
    ⟨fewer, fun e member => errors ▸ member, ?_, ?_⟩⟩
  · intro r member
    have member : r ∈ hand ++ w.pendingReqs := by simpa [pendingReqs, pending] using member
    rw [others r (apart r member)]
    exact tracked.fresh r member
  · intro row member
    obtain ⟨row₀, among, unfinished, what⟩ := mem_evicted aligned member
    have same : row.req = row₀.req ∧ row.finished = row₀.finished := by
      rcases what with rfl | ⟨-, rfl⟩
      · exact ⟨rfl, rfl⟩
      · exact ⟨rfl, rfl⟩
    have stays := own row₀ among
    rw [if_neg (by simp [unfinished])] at stays
    rw [same.1, same.2, stays, unfinished, unbotched]
    refine ⟨fun finished => Bool.noConfusion finished, fun whole => ?_⟩
    have holds := (old row₀ among).2 whole
    rcases what with rfl | ⟨kept, rfl⟩
    · exact holds
    · exact (forgets.resolve_right kept) holds
  · intro clean
    have before := tracked.cache (by rw [Clean, ← errors]; exact clean)
    exact evicted_cache aligned before cache owners reqs
  · intro p member
    exact tracked.units p (pending ▸ member)
  · intro r absent
    refine others r fun among => absent ?_
    rw [← aligned.reqs] at among
    simp [live, among]
  · intro r member absent
    -- only a finished row stops being live
    have among : r ∈ w.reqs := by
      simp only [live, pendingReqs, pending, List.mem_append] at member absent
      tauto
    rw [aligned.reqs] at among
    obtain ⟨row, hrow, rfl⟩ := List.mem_map.mp among
    have done : row.finished = true := by
      by_contra going
      refine absent ?_
      have stays : row.req ∈ w'.reqs := by
        rw [reqs]
        exact List.mem_map_of_mem (List.mem_filter.mpr ⟨hrow, by simpa using going⟩)
      simp [live, stays]
    obtain ⟨marked, holds⟩ := old row hrow
    rw [own row hrow, if_pos done, unbotched]
    exact ⟨by simp [Output.close], fun whole => law.evicted (holds whole) done (marked done)⟩

end

end Worker

end Mlxforge
