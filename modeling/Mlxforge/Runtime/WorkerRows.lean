import Mlxforge.Runtime.Worker

/-!
The row-aligned vectors as one list of rows. Each operation of the worker has a theorem that says what it does to the
rows and to the outputs of their requests.
-/

namespace Mlxforge

variable {V L K G I : Type}

namespace Worker

/-- The six vectors are the columns of `rows`. -/
structure Aligned (w : Worker V K G) (rows : List (Row K)) : Prop where
  reqs : w.reqs = rows.map Row.req
  produced : w.produced = rows.map Row.produced
  feed : w.feed = rows.map Row.feed
  finished : w.finished = rows.map Row.finished
  history : w.history = rows.map Row.history
  rngKeys : w.rngKeys = rows.map Row.key

/-- Nothing but the rows and their outputs differs. -/
structure SameRest (w w' : Worker V K G) : Prop where
  cache : w'.cache = w.cache
  owners : w'.owners = w.owners
  pending : w'.pending = w.pending
  prefixPool : w'.prefixPool = w.prefixPool
  errors : w'.errors = w.errors

theorem SameRest.refl (w : Worker V K G) : SameRest w w := ⟨rfl, rfl, rfl, rfl, rfl⟩

theorem SameRest.trans {w w' w'' : Worker V K G} (first : SameRest w w') (second : SameRest w' w'') : SameRest w w'' :=
  ⟨second.cache.trans first.cache, second.owners.trans first.owners, second.pending.trans first.pending,
    second.prefixPool.trans first.prefixPool, second.errors.trans first.errors⟩

variable {w w' : Worker V K G} {rows : List (Row K)}

theorem Aligned.length (aligned : w.Aligned rows) : w.reqs.length = rows.length := by
  rw [aligned.reqs, List.length_map]

theorem Aligned.row? (aligned : w.Aligned rows) (b : Nat) : w.row? b = rows[b]? := by
  unfold Worker.row?
  rw [aligned.reqs, aligned.produced, aligned.feed, aligned.finished, aligned.history, aligned.rngKeys]
  simp only [List.getElem?_map]
  cases rows[b]? <;> rfl

/-- Alignment only reads the six vectors. -/
theorem Aligned.congr (aligned : w.Aligned rows) (reqs : w'.reqs = w.reqs) (produced : w'.produced = w.produced)
    (feed : w'.feed = w.feed) (finished : w'.finished = w.finished) (history : w'.history = w.history)
    (rngKeys : w'.rngKeys = w.rngKeys) : w'.Aligned rows :=
  ⟨reqs.trans aligned.reqs, produced.trans aligned.produced, feed.trans aligned.feed, finished.trans aligned.finished,
    history.trans aligned.history, rngKeys.trans aligned.rngKeys⟩

theorem Aligned.putRow (aligned : w.Aligned rows) (b : Nat) (row : Row K) (o : Output G) :
    (w.putRow b row o).Aligned (rows.set b row) := by
  constructor <;> simp only [Worker.putRow, List.map_set]
  · rw [aligned.reqs]
  · rw [aligned.produced]
  · rw [aligned.feed]
  · rw [aligned.finished]
  · rw [aligned.history]
  · rw [aligned.rngKeys]

/-! ### The loop over the rows -/

/-- The bodies of `fs` run on the rows `todo`, which stand behind `before`, each on its own row and output. -/
theorem eachRow_spec (fs : List (RowStep K G)) {before todo : List (Row K)} (aligned : w.Aligned (before ++ todo))
    (count : fs.length = todo.length) (distinct : ((before ++ todo).map Row.req).Nodup)
    (keeps : ∀ f ∈ fs, ∀ row o, (f row o).1.req = row.req) :
    ∃ done, (eachRow fs before.length w).Aligned (before ++ done) ∧ done.length = todo.length ∧
      done.map Row.req = todo.map Row.req ∧
      (∀ (i : Nat) (f : RowStep K G) (row : Row K), fs[i]? = some f → todo[i]? = some row →
        done[i]? = some (f row (w.out row.req)).1 ∧
          (eachRow fs before.length w).out row.req = (f row (w.out row.req)).2) ∧
      (∀ r ∉ todo.map Row.req, (eachRow fs before.length w).out r = w.out r) ∧
      SameRest w (eachRow fs before.length w) := by
  induction fs generalizing before todo w with
  | nil =>
    obtain rfl : todo = [] := List.length_eq_zero_iff.mp count.symm
    exact ⟨[], aligned, rfl, rfl, by simp, fun _ _ => rfl, SameRest.refl w⟩
  | cons f fs ih =>
    cases todo with
    | nil => simp at count
    | cons row todo =>
      have found : w.row? before.length = some row := by rw [aligned.row?]; simp
      have stays : (f row (w.out row.req)).1.req = row.req := keeps f (by simp) row _
      let w₁ := w.putRow before.length (f row (w.out row.req)).1 (f row (w.out row.req)).2
      have aligned₁ : w₁.Aligned ((before ++ [(f row (w.out row.req)).1]) ++ todo) := by
        have put := aligned.putRow before.length (f row (w.out row.req)).1 (f row (w.out row.req)).2
        simpa using put
      have names : ((before ++ [(f row (w.out row.req)).1]) ++ todo).map Row.req = (before ++ row :: todo).map Row.req := by
        simp [stays]
      have later : row.req ∉ todo.map Row.req := by
        rw [List.map_append, List.map_cons] at distinct
        exact (List.nodup_cons.mp (List.nodup_append.mp distinct).2.1).1
      obtain ⟨done, aligned', length, reqs, visited, others, rest⟩ :=
        ih aligned₁ (by simpa using count) (names ▸ distinct) fun g member => keeps g (by simp [member])
      have run : eachRow (f :: fs) before.length w = eachRow fs (before ++ [(f row (w.out row.req)).1]).length w₁ := by
        rw [eachRow, found, List.length_append, List.length_singleton]
      have rest₁ : SameRest w w₁ := ⟨rfl, rfl, rfl, rfl, rfl⟩
      have own : w₁.out row.req = (f row (w.out row.req)).2 := by
        have put : w₁.out (f row (w.out row.req)).1.req = (f row (w.out row.req)).2 := Function.update_self _ _ _
        rwa [stays] at put
      have out₁ : ∀ r ≠ row.req, w₁.out r = w.out r := by
        intro r other
        exact Function.update_of_ne (fun same => other (same.trans stays)) _ _
      rw [run]
      refine ⟨(f row (w.out row.req)).1 :: done, by simpa using aligned', by simp [length], by simp [stays, reqs], ?_, ?_,
        rest₁.trans rest⟩
      · intro i g row' gAt rowAt
        cases i with
        | zero =>
          obtain rfl : f = g := by simpa using gAt
          obtain rfl : row = row' := by simpa using rowAt
          exact ⟨rfl, (others _ later).trans own⟩
        | succ i =>
          have gAt : fs[i]? = some g := by simpa using gAt
          have rowAt : todo[i]? = some row' := by simpa using rowAt
          have other : row'.req ≠ row.req := fun same => later (same ▸ List.mem_map_of_mem (List.mem_of_getElem? rowAt))
          obtain ⟨at_i, out⟩ := visited i g row' gAt rowAt
          rw [out₁ _ other] at at_i out
          exact ⟨by simpa using at_i, out⟩
      · intro r absent
        simp only [List.map_cons, List.mem_cons, not_or] at absent
        rw [others r absent.2, out₁ r absent.1]

/-! ### Registration -/

section
variable {env : WorkerEnv V L K G I}

/-- The row `pushRow` adds. -/
def freshRow (env : WorkerEnv V L K G I) (o : Output G) (r : Nat) : Row K where
  req := r
  produced := 0
  feed := 0
  finished := false
  history := o.promptIds
  key := env.key (env.request r).params.seed

/-- A request with its grammar compiled. -/
def compiled (env : WorkerEnv V L K G I) (r : Nat) (o : Output G) : Output G :=
  if env.tok && (env.request r).jsonSchema != "" then
    { o with grammar := some (env.fromSchemaString (env.request r).jsonSchema) }
  else o

@[simp] theorem compiled_promptIds (r : Nat) (o : Output G) : (compiled env r o).promptIds = o.promptIds := by
  unfold compiled
  split <;> rfl

@[simp] theorem compiled_tokens (r : Nat) (o : Output G) : (compiled env r o).tokens = o.tokens := by
  unfold compiled
  split <;> rfl

@[simp] theorem compiled_closes (r : Nat) (o : Output G) : (compiled env r o).closes = o.closes := by
  unfold compiled
  split <;> rfl

variable (env) in
theorem pushRow_spec (aligned : w.Aligned rows) (r : Nat) :
    (w.pushRow env r).Aligned (rows ++ [freshRow env (w.out r) r]) ∧
      (w.pushRow env r).out r = compiled env r (w.out r) ∧ (∀ r' ≠ r, (w.pushRow env r).out r' = w.out r') ∧
      SameRest w (w.pushRow env r) := by
  obtain ⟨reqs, produced, feed, finished, history, rngKeys⟩ := aligned
  simp only [pushRow, compiled]
  split
  · refine ⟨⟨?_, ?_, ?_, ?_, ?_, ?_⟩, Function.update_self _ _ _, fun r' other => Function.update_of_ne other _ _,
      ⟨rfl, rfl, rfl, rfl, rfl⟩⟩
    all_goals simp [update, freshRow, *]
  · refine ⟨⟨?_, ?_, ?_, ?_, ?_, ?_⟩, rfl, fun _ _ => rfl, ⟨rfl, rfl, rfl, rfl, rfl⟩⟩
    all_goals simp [freshRow, *]

variable (env) in
theorem pushRows_spec {ids : List Nat} (aligned : w.Aligned rows) (distinct : ids.Nodup) :
    (w.pushRows env ids).Aligned (rows ++ ids.map fun r => freshRow env (w.out r) r) ∧
      (∀ r ∈ ids, (w.pushRows env ids).out r = compiled env r (w.out r)) ∧
      (∀ r ∉ ids, (w.pushRows env ids).out r = w.out r) ∧ SameRest w (w.pushRows env ids) := by
  induction ids generalizing w rows with
  | nil => exact ⟨by rw [List.map_nil, List.append_nil]; exact aligned, by simp, fun _ _ => rfl, SameRest.refl w⟩
  | cons r ids ih =>
    obtain ⟨fresh, distinct⟩ := List.nodup_cons.mp distinct
    obtain ⟨aligned₁, own, others, rest⟩ := pushRow_spec env aligned r
    obtain ⟨aligned₂, owns, others₂, rest₂⟩ := ih aligned₁ distinct
    have run : w.pushRows env (r :: ids) = (w.pushRow env r).pushRows env ids := rfl
    have same : ids.map (fun r' => freshRow env ((w.pushRow env r).out r') r') =
        ids.map fun r' => freshRow env (w.out r') r' := by
      apply List.map_congr_left
      intro r' member
      rw [others r' fun same => fresh (same ▸ member)]
    rw [run]
    refine ⟨?_, ?_, ?_, rest.trans rest₂⟩
    · rw [same] at aligned₂
      simpa using aligned₂
    · intro r' member
      rcases List.mem_cons.mp member with rfl | member
      · rw [others₂ r' fresh, own]
      · rw [owns r' member, others r' fun same => fresh (same ▸ member)]
    · intro r' absent
      rw [List.mem_cons, not_or] at absent
      rw [others₂ r' absent.2, others r' absent.1]

/-- A row whose key was used once more. -/
def keyUsed (env : WorkerEnv V L K G I) (row : Row K) : Row K := { row with key := (env.split row.key).1 }

variable (env) in
theorem advanceKeys_aligned {before todo : List (Row K)} (aligned : w.Aligned (before ++ todo)) :
    (w.advanceKeys env before.length todo.length).Aligned (before ++ todo.map (keyUsed env)) := by
  have columns : ∀ {α : Type} (f : Row K → α), (∀ row, f (keyUsed env row) = f row) →
      (before ++ todo).map f = (before ++ todo.map (keyUsed env)).map f := by
    intro α f same
    simp [Function.comp_def, same]
  refine ⟨?_, ?_, ?_, ?_, ?_, ?_⟩
  · exact aligned.reqs.trans (columns _ fun _ => rfl)
  · exact aligned.produced.trans (columns _ fun _ => rfl)
  · exact aligned.feed.trans (columns _ fun _ => rfl)
  · exact aligned.finished.trans (columns _ fun _ => rfl)
  · exact aligned.history.trans (columns _ fun _ => rfl)
  · apply List.ext_getElem?
    intro b
    simp only [advanceKeys, aligned.rngKeys, List.getElem?_mapIdx, List.getElem?_map, List.getElem?_append]
    by_cases old : b < before.length
    · rw [if_pos old, if_pos old]
      cases before[b]? with
      | none => rfl
      | some row => simp only [Option.map_some, if_neg (show ¬(before.length ≤ b ∧ b < before.length + todo.length) by omega)]
    · rw [if_neg old, if_neg old]
      cases at_b : todo[b - before.length]? with
      | none => rfl
      | some row =>
        have inside := (List.getElem?_eq_some_iff.mp at_b).1
        simp only [Option.map_some, if_pos (show before.length ≤ b ∧ b < before.length + todo.length by omega), keyUsed]

theorem firstToken_req (flags : List Nat) (s : Sampled) (row : Row K) (o : Output G) :
    (firstToken env flags s row o).1.req = row.req := by
  simp only [firstToken]
  split <;> rfl

theorem nextToken_req (flags : List Nat) (s : Sampled) (row : Row K) (o : Output G) :
    (nextToken env flags s row o).1.req = row.req := by
  simp only [nextToken]
  split
  · rfl
  · split <;> rfl

/-- The samples of the rows behind `before`, one a row. -/
theorem sampleRows_spec {before todo : List (Row K)} {logits : List L} {samples : List Sampled}
    (aligned : w.Aligned (before ++ todo)) (ok : w.sampleRows env logits before.length todo.length = .ok samples) :
    samples.length = todo.length ∧ ∀ (i : Nat) (row : Row K), todo[i]? = some row → ∃ l s, logits[i]? = some l ∧ samples[i]? = some s ∧
      sampleRow env (env.request row.req) (w.out row.req) row l = .ok s := by
  unfold sampleRows at ok
  refine ⟨by rw [mapM_length ok, List.length_range], fun i row at_i => ?_⟩
  have inside := (List.getElem?_eq_some_iff.mp at_i).1
  obtain ⟨s, sampled, ran⟩ := mapM_getElem ok (i := i) (x := i) (by simp [inside])
  have found : w.row? (before.length + i) = some row := by
    rw [aligned.row?, List.getElem?_append_right (Nat.le_add_right _ _), Nat.add_sub_cancel_left, at_i]
  rw [found] at ran
  cases given : logits[i]? with
  | none =>
    rw [given] at ran
    cases ran
  | some l =>
    rw [given] at ran
    exact ⟨l, s, rfl, sampled, ran⟩

/-- One request's registration: its fresh row samples a first token from the logits `l`. -/
def Registered (env : WorkerEnv V L K G I) (flags : List Nat) (before : Output G) (r : Nat) (l : L) (row : Row K)
    (after : Output G) : Prop :=
  ∃ s, sampleRow env (env.request r) (compiled env r before) (freshRow env before r) l = .ok s ∧
    (row, after) = firstToken env flags s (keyUsed env (freshRow env before r)) (compiled env r before)

theorem registerRows_spec {flags ids : List Nat} {logits : List L} (aligned : w.Aligned rows)
    (distinct : (rows.map Row.req ++ ids).Nodup) (ok : w.registerRows env flags ids logits = .ok w') :
    ∃ new : List (Row K), w'.Aligned (rows ++ new) ∧ new.map Row.req = ids ∧
      (∀ (i r : Nat), ids[i]? = some r → ∃ l row, logits[i]? = some l ∧ new[i]? = some row ∧
        Registered env flags (w.out r) r l row (w'.out r)) ∧
      (∀ r ∉ ids, w'.out r = w.out r) ∧ SameRest w w' := by
  obtain ⟨_, unique, _⟩ := List.nodup_append.mp distinct
  unfold registerRows at ok
  obtain ⟨samples, sampled, ok⟩ := bind_ok ok
  obtain rfl := pure_ok ok
  obtain ⟨pushed, owns, others, rest⟩ := pushRows_spec env aligned unique
  let fresh := ids.map fun r => freshRow env (w.out r) r
  have names : fresh.map Row.req = ids := by simp [fresh, freshRow, Function.comp_def]
  have count : fresh.length = ids.length := by simp [fresh]
  rw [aligned.length, ← count] at sampled
  obtain ⟨samplesCount, samplesAt⟩ := sampleRows_spec pushed sampled
  have used := advanceKeys_aligned env pushed
  have usedNames : (fresh.map (keyUsed env)).map Row.req = ids := by
    rw [List.map_map, ← names]
    rfl
  obtain ⟨done, aligned', length, reqs, visited, others', rest'⟩ := eachRow_spec
    (samples.map (firstToken env flags)) used (by simp [samplesCount])
    (by rw [List.map_append, usedNames]; exact distinct)
    (fun f member row o => by
      obtain ⟨s, _, rfl⟩ := List.mem_map.mp member
      exact firstToken_req flags s row o)
  have rest₁ : SameRest (w.pushRows env ids) ((w.pushRows env ids).advanceKeys env rows.length fresh.length) :=
    ⟨rfl, rfl, rfl, rfl, rfl⟩
  rw [aligned.length, ← count]
  refine ⟨done, aligned', reqs.trans usedNames, ?_, ?_, rest.trans (rest₁.trans rest')⟩
  · intro i r at_i
    have freshAt : fresh[i]? = some (freshRow env (w.out r) r) := by simp [fresh, at_i]
    obtain ⟨l, s, logit, sample, ran⟩ := samplesAt i _ freshAt
    have member := List.mem_of_getElem? at_i
    obtain ⟨row, out⟩ := visited i (firstToken env flags s) (keyUsed env (freshRow env (w.out r) r))
      (by simp [sample]) (by rw [List.getElem?_map, freshAt]; rfl)
    have own : (w.pushRows env ids).out r = compiled env r (w.out r) := owns r member
    refine ⟨l, _, logit, row, s, ?_, ?_⟩
    · rw [← own]
      exact ran
    · refine Prod.ext ?_ ?_
      · exact congrArg (fun o => (firstToken env flags s (keyUsed env (freshRow env (w.out r) r)) o).1) own
      · exact out.trans (congrArg (fun o => (firstToken env flags s (keyUsed env (freshRow env (w.out r) r)) o).2) own)
  · intro r absent
    rw [others' r (by rw [usedNames]; exact absent)]
    exact others r absent

/-! ### Decoding -/

/-- One row's decode step from the logits `l`. -/
def Decoded (env : WorkerEnv V L K G I) (flags : List Nat) (before : Output G) (row : Row K) (l : L) (row' : Row K)
    (after : Output G) : Prop :=
  ∃ s, sampleRow env (env.request row.req) before row l = .ok s ∧
    (row', after) = nextToken env flags s (keyUsed env row) before

/-- The tokens of a decode step: every row's feed, and a pad token for every dummy. -/
def fedTokens (feed : List Int) (bucket : Nat) : KvArray Int :=
  ⟨bucket, 1, fun b _ => (feed ++ List.replicate (bucket - feed.length) 0).getD b 0⟩

theorem decodeStep_spec [Slot V] {flags : List Nat} (aligned : w.Aligned rows) (distinct : (rows.map Row.req).Nodup)
    (ok : w.decodeStep env flags = .ok w') :
    ∃ padded stepped logits, w.paddedCache (nextBucket rows.length - rows.length) = .ok padded ∧
      env.model.forward (fedTokens w.feed (nextBucket rows.length)) padded = .ok (logits, stepped) ∧
      w'.cache = some (if 0 < nextBucket rows.length - rows.length then stepped.filter (List.range rows.length)
        else stepped) ∧
      (∃ rows', w'.Aligned rows' ∧ rows'.map Row.req = rows.map Row.req ∧
        ∀ (b : Nat) (row : Row K), rows[b]? = some row → ∃ row', rows'[b]? = some row' ∧
          Decoded env flags (w.out row.req) row (logits.get b 0) row' (w'.out row.req)) ∧
      (∀ r ∉ rows.map Row.req, w'.out r = w.out r) ∧
      w'.owners = w.owners ∧ w'.pending = w.pending ∧ w'.prefixPool = w.prefixPool ∧ w'.errors = w.errors := by
  have feeds : w.feed.length = rows.length := by rw [aligned.feed, List.length_map]
  unfold decodeStep at ok
  rw [aligned.length] at ok
  obtain ⟨padded, pads, ok⟩ := bind_ok ok
  obtain ⟨⟨logits, stepped⟩, forwarded, ok⟩ := bind_ok ok
  obtain ⟨samples, sampled, ok⟩ := bind_ok ok
  obtain rfl := pure_ok ok
  have all : w.Aligned ([] ++ rows) := aligned
  obtain ⟨count, samplesAt⟩ := sampleRows_spec all sampled
  have used := advanceKeys_aligned env all
  have names : (rows.map (keyUsed env)).map Row.req = rows.map Row.req := by rw [List.map_map]; rfl
  obtain ⟨rows', aligned', _, reqs, visited, others, rest⟩ := eachRow_spec (samples.map (nextToken env flags)) used
    (by simp [count]) (by rw [List.nil_append, names]; exact distinct)
    (fun f member row o => by
      obtain ⟨s, _, rfl⟩ := List.mem_map.mp member
      exact nextToken_req flags s row o)
  refine ⟨padded, stepped, logits, pads, ?_, rfl, ⟨rows', aligned'.congr rfl rfl rfl rfl rfl rfl, reqs.trans names, ?_⟩,
    ?_, rest.owners, rest.pending, rest.prefixPool, rest.errors⟩
  · rw [fedTokens, feeds]
    exact forwarded
  · intro b row at_b
    obtain ⟨l, s, logit, sample, ran⟩ := samplesAt b row at_b
    obtain ⟨row', out⟩ := visited b (nextToken env flags s) (keyUsed env row) (by simp [sample])
      (by rw [List.getElem?_map, at_b]; rfl)
    have read : logits.get b 0 = l := by
      obtain ⟨inside, value⟩ := List.getElem?_eq_some_iff.mp logit
      simpa [logitRows] using value
    subst read
    exact ⟨_, row', s, ran, Prod.ext rfl out⟩
  · intro r absent
    exact others r (by rw [names]; exact absent)

/-! ### Eviction -/

/-- The unfinished rows, each with its index. -/
def kept (rows : List (Row K)) : List (Row K × Nat) := rows.zipIdx.filter fun p => !p.1.finished

/-- What the compaction leaves: a row that stays where it is loses its history. -/
def survivors (rows : List (Row K)) : List (Row K) :=
  (kept rows).zipIdx.map fun p => if p.1.2 = p.2 then { p.1.1 with history := [] } else p.1.1

theorem kept_getElem {rows : List (Row K)} {i k : Nat} {row : Row K} (at_i : (kept rows)[i]? = some (row, k)) :
    rows[k]? = some row ∧ row.finished = false := by
  obtain ⟨member, unfinished⟩ := List.mem_filter.mp (List.mem_of_getElem? at_i)
  exact ⟨List.mem_zipIdx_iff_getElem?.mp member, by simpa using unfinished⟩

/-- A kept row's place is the number of unfinished rows ahead of it. -/
theorem kept_place {rows : List (Row K)} {i k : Nat} {row : Row K} (at_i : (kept rows)[i]? = some (row, k)) :
    i = (rows.take k).countP fun row => !row.finished := by
  have from_n : ∀ (rows : List (Row K)) (n i k : Nat) (row : Row K),
      ((rows.zipIdx n).filter fun p => !p.1.finished)[i]? = some (row, k) →
        n ≤ k ∧ i = (rows.take (k - n)).countP fun row => !row.finished := by
    intro rows
    induction rows with
    | nil => simp
    | cons first rows ih =>
      intro n i k row at_i
      rw [List.zipIdx_cons, List.filter_cons] at at_i
      by_cases done : first.finished = true
      · simp only [done, Bool.not_true, Bool.false_eq_true, if_false] at at_i
        obtain ⟨later, place⟩ := ih (n + 1) i k row at_i
        refine ⟨by omega, ?_⟩
        rw [show k - n = (k - (n + 1)) + 1 by omega, List.take_succ_cons, List.countP_cons_of_neg (by simp [done])]
        exact place
      · simp only [done, Bool.not_false, if_true] at at_i
        cases i with
        | zero =>
          obtain ⟨_, rfl⟩ := Prod.mk.inj (Option.some.inj at_i)
          exact ⟨le_rfl, by simp⟩
        | succ i =>
          obtain ⟨later, place⟩ := ih (n + 1) i k row (by simpa using at_i)
          refine ⟨by omega, ?_⟩
          rw [show k - n = (k - (n + 1)) + 1 by omega, List.take_succ_cons, List.countP_cons_of_pos (by simp [done]), place]
  have placed := from_n rows 0 i k row at_i
  simpa using placed.2

/-- A kept row stays where it is when no row ahead of it is finished. -/
theorem kept_stays {rows : List (Row K)} {i k : Nat} {row : Row K} (at_i : (kept rows)[i]? = some (row, k)) :
    k = i ↔ ∀ ahead ∈ rows.take k, ahead.finished = false := by
  have inside := (List.getElem?_eq_some_iff.mp (kept_getElem at_i).1).1
  have size : (rows.take k).length = k := by rw [List.length_take]; omega
  rw [kept_place at_i]
  constructor
  · intro same ahead member
    have full := List.countP_eq_length.mp (same.symm.trans size.symm) ahead member
    simpa using full
  · intro all
    rw [List.countP_eq_length.mpr fun ahead member => by simp [all ahead member], size]

theorem kept_map_fst (rows : List (Row K)) : (kept rows).map Prod.fst = rows.filter fun row => !row.finished := by
  conv_rhs => rw [← List.zipIdx_map_fst 0 rows, List.filter_map]
  rfl

theorem survivors_columns {α : Type} (rows : List (Row K)) (f : Row K → α)
    (same : ∀ row, f { row with history := [] } = f row) :
    (survivors rows).map f = (rows.filter fun row => !row.finished).map f := by
  rw [← kept_map_fst, survivors, List.map_map, List.map_map]
  apply List.ext_getElem?
  intro i
  simp only [List.getElem?_map, List.getElem?_zipIdx, Nat.zero_add]
  cases (kept rows)[i]? with
  | none => rfl
  | some p =>
    simp only [Option.map_some, Function.comp_apply]
    split
    · rw [same]
    · rfl

/-- Nothing is lost where the row in front is finished. -/
theorem survivors_front {rows : List (Row K)} (front : (rows.head?.map Row.finished) = some true) :
    survivors rows = rows.filter fun row => !row.finished := by
  rw [← kept_map_fst, survivors]
  apply List.ext_getElem?
  intro i
  simp only [List.getElem?_map, List.getElem?_zipIdx, Nat.zero_add]
  cases at_i : (kept rows)[i]? with
  | none => rfl
  | some p =>
    obtain ⟨row, k⟩ := p
    obtain ⟨found, unfinished⟩ := kept_getElem at_i
    have moved : k ≠ i := by
      intro stays
      have ahead := (kept_stays at_i).mp stays
      cases rows with
      | nil => simp at front
      | cons first rows =>
        have done : first.finished = true := by simpa using front
        cases k with
        | zero =>
          obtain rfl : first = row := by simpa using found
          rw [done] at unfinished
          cases unfinished
        | succ k =>
          have := ahead first (by simp)
          rw [done] at this
          cases this
    simp [moved]

theorem compact_column {α : Type} {leave : α → α} {assign : List α → Nat → Nat → List α} (rows : List (Row K))
    (f : Row K → α) (assigns : Compaction.Assigns leave assign)
    (left : ∀ row, f { row with history := [] } = leave (f row)) :
    Compaction.compact assign ((kept rows).map Prod.snd) (rows.map f) = (survivors rows).map f := by
  have ascending : ((kept rows).map Prod.snd).Pairwise (· < ·) := by
    have indices : (rows.zipIdx.map Prod.snd).Pairwise (· < ·) := by
      rw [List.zipIdx_map_snd, ← List.range_eq_range']
      exact List.pairwise_lt_range
    exact indices.sublist (List.Sublist.map _ List.filter_sublist)
  have inside : ∀ k ∈ (kept rows).map Prod.snd, k < (rows.map f).length := by
    intro k member
    obtain ⟨⟨row, k⟩, among, rfl⟩ := List.mem_map.mp member
    obtain ⟨i, at_i⟩ := List.mem_iff_getElem?.mp among
    rw [List.length_map]
    exact (List.getElem?_eq_some_iff.mp (kept_getElem at_i).1).1
  apply List.ext_getElem?
  intro i
  rw [Compaction.compact_getElem? assigns ascending inside, survivors]
  simp only [List.getElem?_map, List.getElem?_zipIdx, Nat.zero_add]
  cases at_i : (kept rows)[i]? with
  | none => rfl
  | some p =>
    obtain ⟨row, k⟩ := p
    have found := (kept_getElem at_i).1
    simp only [Option.map_some, Option.bind_some, found]
    split
    · rw [left]
    · rfl

theorem compact_aligned (aligned : w.Aligned rows) : (w.compact ((kept rows).map Prod.snd)).Aligned (survivors rows) := by
  constructor <;> simp only [compact]
  · rw [aligned.reqs]
    exact compact_column rows _ Compaction.assigns_copyTo fun _ => rfl
  · rw [aligned.produced]
    exact compact_column rows _ Compaction.assigns_copyTo fun _ => rfl
  · rw [aligned.feed]
    exact compact_column rows _ Compaction.assigns_copyTo fun _ => rfl
  · rw [aligned.finished]
    exact compact_column rows _ Compaction.assigns_copyTo fun _ => rfl
  · rw [aligned.history]
    exact compact_column rows _ Compaction.assigns_moveTo fun _ => rfl
  · rw [aligned.rngKeys]
    exact compact_column rows _ Compaction.assigns_copyTo fun _ => rfl

theorem keep_eq (rows : List (Row K)) :
    ((List.range (rows.map Row.finished).length).filter fun b => !(rows.map Row.finished).getD b false) =
      (kept rows).map Prod.snd := by
  have indices : List.range (rows.map Row.finished).length = rows.zipIdx.map Prod.snd := by
    rw [List.zipIdx_map_snd, ← List.range_eq_range', List.length_map]
  rw [indices, List.filter_map, kept]
  congr 1
  apply List.filter_congr
  intro p member
  have at_k := List.mem_zipIdx_iff_getElem?.mp member
  simp [List.getD_eq_getElem?_getD, at_k]

/-- The rows an eviction leaves. -/
def evicted (rows : List (Row K)) : List (Row K) := if rows.any Row.finished then survivors rows else rows

theorem evicted_columns {α : Type} (rows : List (Row K)) (f : Row K → α)
    (same : ∀ row, f { row with history := [] } = f row) :
    (evicted rows).map f = (rows.filter fun row => !row.finished).map f := by
  unfold evicted
  split
  · exact survivors_columns rows f same
  · rename_i unfinished
    congr 1
    symm
    rw [List.filter_eq_self]
    intro row member
    by_contra done
    exact unfinished (List.any_eq_true.mpr ⟨row, member, by simpa using done⟩)

variable (env) in
theorem harvestFinished_frame (w : Worker V K G) :
    ∃ pool, w.harvestFinished env = { w with prefixPool := pool } := by
  unfold harvestFinished
  split
  · split
    · exact ⟨_, rfl⟩
    · exact ⟨_, rfl⟩
  · exact ⟨_, rfl⟩

variable [Slot V]

theorem keepRows_spec (aligned : w.Aligned rows) :
    (w.keepRows ((kept rows).map Prod.snd)).Aligned (evicted rows) ∧
      (w.keepRows ((kept rows).map Prod.snd)).out = w.out ∧
      (w.keepRows ((kept rows).map Prod.snd)).cache = (if rows.any Row.finished then
        (if (kept rows).map Prod.snd = [] then none else w.cache.map (·.filter ((kept rows).map Prod.snd)))
        else w.cache) ∧
      (w.keepRows ((kept rows).map Prod.snd)).owners = (if rows.any Row.finished then
        (if (kept rows).map Prod.snd = [] then [] else gather 0 w.owners ((kept rows).map Prod.snd)) else w.owners) ∧
      (w.keepRows ((kept rows).map Prod.snd)).pending = w.pending ∧
      (w.keepRows ((kept rows).map Prod.snd)).errors = w.errors := by
  have counts : ((kept rows).map Prod.snd).length = rows.length ↔ ¬rows.any Row.finished = true := by
    rw [List.length_map, ← List.length_map (f := Prod.fst), kept_map_fst, List.length_filter_eq_length_iff,
      Bool.not_eq_true, List.any_eq_false]
    simp
  unfold keepRows evicted
  rw [aligned.length]
  by_cases any : rows.any Row.finished = true
  · rw [if_neg fun full => counts.mp full any, if_pos any, if_pos any, if_pos any]
    by_cases none : (kept rows).map Prod.snd = []
    · rw [if_pos none, if_pos none, if_pos none]
      exact ⟨compact_aligned (aligned.congr rfl rfl rfl rfl rfl rfl), rfl, rfl, rfl, rfl, rfl⟩
    · rw [if_neg none, if_neg none, if_neg none]
      exact ⟨compact_aligned (aligned.congr rfl rfl rfl rfl rfl rfl), rfl, rfl, rfl, rfl, rfl⟩
  · rw [if_pos (counts.mpr any), if_neg any, if_neg any, if_neg any]
    exact ⟨aligned, rfl, rfl, rfl, rfl, rfl⟩

variable (env) in
theorem evictFinished_spec (aligned : w.Aligned rows) (distinct : (rows.map Row.req).Nodup) :
    (w.evictFinished env).Aligned (evicted rows) ∧
      (∀ row ∈ rows, (w.evictFinished env).out row.req =
        if row.finished then (w.out row.req).close else w.out row.req) ∧
      (∀ r ∉ rows.map Row.req, (w.evictFinished env).out r = w.out r) ∧
      (w.evictFinished env).cache = (if rows.any Row.finished then
        (if (kept rows).map Prod.snd = [] then none else w.cache.map (·.filter ((kept rows).map Prod.snd)))
        else w.cache) ∧
      (w.evictFinished env).owners = (if rows.any Row.finished then
        (if (kept rows).map Prod.snd = [] then [] else gather 0 w.owners ((kept rows).map Prod.snd)) else w.owners) ∧
      (w.evictFinished env).pending = w.pending ∧ (w.evictFinished env).errors = w.errors := by
  obtain ⟨pool, harvested⟩ := harvestFinished_frame env w
  let pooled : Worker V K G := { w with prefixPool := pool }
  have all : pooled.Aligned ([] ++ rows) := aligned.congr rfl rfl rfl rfl rfl rfl
  obtain ⟨rows', aligned', length, _, visited, others, rest⟩ := eachRow_spec
    (List.replicate (rows.map Row.finished).length closeFinished) all (by simp) (by simpa using distinct)
    (fun f member row o => by
      obtain rfl := List.eq_of_mem_replicate member
      rfl)
  let closed := eachRow (List.replicate (rows.map Row.finished).length closeFinished) 0 pooled
  have each : ∀ (b : Nat) (row : Row K), rows[b]? = some row → rows'[b]? = some row ∧
      closed.out row.req = if row.finished then (w.out row.req).close else w.out row.req := by
    intro b row at_b
    have inside := (List.getElem?_eq_some_iff.mp at_b).1
    exact visited b closeFinished row (by simp [inside]) at_b
  have same : rows' = rows := by
    apply List.ext_getElem?
    intro b
    cases at_b : rows[b]? with
    | some row => exact (each b row at_b).1
    | none =>
      rw [List.getElem?_eq_none_iff] at at_b ⊢
      omega
  subst same
  have run : w.evictFinished env = closed.keepRows ((kept rows').map Prod.snd) := by
    have finished : pooled.finished = rows'.map Row.finished := aligned.finished
    unfold evictFinished
    rw [harvested]
    change (eachRow (List.replicate pooled.finished.length closeFinished) 0 pooled).keepRows
      ((List.range pooled.finished.length).filter fun b => !pooled.finished.getD b false) = _
    rw [finished, keep_eq]
  have columns : closed.Aligned rows' := aligned'
  obtain ⟨compacted, out, cache, owners, pending, errors⟩ := keepRows_spec columns
  rw [run, out]
  refine ⟨compacted, ?_, others, ?_, ?_, pending.trans rest.pending, errors.trans rest.errors⟩
  · intro row member
    obtain ⟨b, at_b⟩ := List.mem_iff_getElem?.mp member
    exact (each b row at_b).2
  · rw [cache, show closed.cache = w.cache from rest.cache]
  · rw [owners, show closed.owners = w.owners from rest.owners]

end

end Worker

end Mlxforge
