import Mlxforge.Runtime.ServedPace

/-!
No request waits for ever: what the worker still has to do before a request is closed goes down with every step of the
worker, whatever the clients do in between.
-/

namespace Mlxforge

open Transition (Reachable Run)

variable {V H Q L K G I : Type}

namespace Worker

variable {env : WorkerEnv V L K G I} {w w' : Worker V K G} {flags : List Nat} {rows : List (Row K)}

theorem Tracked.rows_distinct {P : Output G → Row K → Prop} {hand : List Nat} (tracked : Tracked P hand w)
    (aligned : w.Aligned rows) : (rows.map Row.req).Nodup := by
  rw [List.nodup_iff_count_le_one, ← aligned.reqs]
  intro r
  have once := tracked.once r
  simp only [live, List.count_append] at once
  omega

variable {hand : List Nat}

theorem paced_row (tracked : Tracked Paced hand w) (clean : w.Clean) {r : Nat} (member : r ∈ w.reqs) :
    ∃ rows row, w.Aligned rows ∧ (rows.map Row.req).Nodup ∧ row ∈ rows ∧ row.req = r ∧ Paced (w.out r) row ∧
      (row.finished = true → (w.out r).finishReason ≠ "") := by
  obtain ⟨rows, aligned, each⟩ := tracked.rows
  have distinct := tracked.rows_distinct aligned
  rw [aligned.reqs] at member
  obtain ⟨row, among, rfl⟩ := List.mem_map.mp member
  obtain ⟨marked, held⟩ := each row among
  exact ⟨rows, row, aligned, distinct, among, rfl, held fun botched => (by cases clean _ botched), marked⟩

variable [Slot V]

/-- A decode step gives a row that goes on a token, and leaves an ended one alone. -/
theorem decodeStep_paced (tracked : Tracked Paced hand w) (clean : w.Clean) (ok : w.decodeStep env flags = .ok w') {r : Nat}
    (member : r ∈ w.reqs) : r ∈ w'.reqs ∧ ((w.out r).finishReason ≠ "" → w'.out r = w.out r) ∧
      ((w.out r).finishReason = "" → (w'.out r).finishReason = "" →
        (w'.out r).tokens.length = (w.out r).tokens.length + 1 ∧
          (w.out r).tokens.length + 1 < (env.request r).maxTokens.toNat) := by
  obtain ⟨rows, row, aligned, distinct, among, rfl, pace, marked⟩ := paced_row tracked clean member
  obtain ⟨padded, stepped, logits, -, -, -, ⟨rows', aligned', names, each⟩, -⟩ := decodeStep_spec aligned distinct ok
  obtain ⟨b, at_b⟩ := List.mem_iff_getElem?.mp among
  obtain ⟨row', -, decoded⟩ := each b row at_b
  obtain ⟨still, further⟩ := decoded.paced pace marked
  refine ⟨?_, still, further⟩
  rwa [aligned'.reqs, names, ← aligned.reqs]

/-- An eviction closes a row that has ended, and leaves one that goes on alone. -/
theorem evictFinished_paced (tracked : Tracked Paced hand w) (clean : w.Clean) (env : WorkerEnv V L K G I) {r : Nat}
    (member : r ∈ w.reqs) :
    ((w.out r).finishReason = "" → r ∈ (w.evictFinished env).reqs ∧ (w.evictFinished env).out r = w.out r) ∧
      ((w.out r).finishReason ≠ "" → ((w.evictFinished env).out r).closes ≠ []) := by
  obtain ⟨rows, row, aligned, distinct, among, rfl, pace, marked⟩ := paced_row tracked clean member
  obtain ⟨aligned', outs, -⟩ := evictFinished_spec env aligned distinct
  rw [outs row among]
  constructor
  · intro going
    have unfinished : row.finished = false := by
      rw [← Bool.not_eq_true]
      exact fun finished => marked finished going
    rw [unfinished]
    refine ⟨?_, rfl⟩
    rw [aligned'.reqs, evicted_columns rows Row.req fun _ => rfl]
    exact List.mem_map_of_mem (List.mem_filter.mpr ⟨among, by simp [unfinished]⟩)
  · intro ended
    have finished : row.finished = true := by
      rw [← Bool.not_eq_false]
      exact fun unfinished => ended (pace.going unfinished)
    rw [finished]
    simp [Output.close]

theorem evictFinished_pending (tracked : Counted hand w) (env : WorkerEnv V L K G I) :
    (w.evictFinished env).pending = w.pending ∧ (w.evictFinished env).reqs ⊆ w.reqs := by
  obtain ⟨rows, aligned, -⟩ := tracked.rows
  have distinct := tracked.rows_distinct aligned
  obtain ⟨aligned', -, -, -, -, pending, -⟩ := evictFinished_spec env aligned distinct
  refine ⟨pending, ?_⟩
  rw [aligned'.reqs, evicted_columns rows Row.req fun _ => rfl, aligned.reqs]
  exact List.map_subset _ (List.filter_subset_self _)

end Worker

namespace EngineState

variable {env : WorkerEnv V L K G I} {m : DecoderModel V H Q L} {greedy : L → Int} {record : L → Int → TokenLogprob Rat}
  {s t : EngineState V K G} {a : EngineAction} {flags : List Nat} {maxWaiting : Int} {ctx r : Nat}

/-! ### The rank of a request -/

/-- Where the worker stands in its turn. -/
def phase (s : EngineState V K G) : Nat :=
  match s.location with
  | .top => 0
  | .tookFirst _ => 1
  | .admitting _ => 2
  | .advancing => 3
  | .evicting => 4
  | .decoding => 5
  | .evictingDecoded => 6
  | .exited => 7

/-- The steps from one place in the turn to another, at most. -/
def stepsTo (phase target : Nat) : Nat := (target + 7 - phase) % 7

/-- The steps to the next of the turn's two evictions. -/
def toEviction (phase : Nat) : Nat := if phase ≤ 4 then 4 - phase else 6 - phase

/-- What the requests in front, and the request itself, may bring to the queue of prefills. -/
def ahead (ctx r : Nat) (waiting : List Nat) : Nat :=
  if r ∈ waiting then (waiting.idxOf r + 1) * (prefillBatchSize * ctx + 1) else 0

/-- The columns that are queued, or are about to be. -/
def load (ctx : Nat) (s : EngineState V K G) : Nat :=
  (if s.hand = [] then 0 else prefillBatchSize * ctx) + s.worker.columns

/-- The worker's next step towards the admission of a request, whether it waits or not. -/
def admits (r : Nat) (s : EngineState V K G) : Nat :=
  stepsTo s.phase (if r ∈ s.sched.waiting ∧ s.worker.pending = [] then 0 else 3)

/-- A bound on the worker's steps until a request is closed: while it waits, what is ahead of it; in the batch, its tokens;
once it has ended, the eviction. -/
def rank (env : WorkerEnv V L K G I) (ctx r : Nat) (s : EngineState V K G) : Nat :=
  if r ∈ s.worker.reqs then
    if (s.worker.out r).finishReason = "" then
      7 * ((env.request r).maxTokens.toNat - (s.worker.out r).tokens.length + 1) + stepsTo s.phase 5
    else toEviction s.phase
  else 7 * (ahead ctx r s.sched.waiting + s.load ctx + (env.request r).maxTokens.toNat + 2) + s.admits r

theorem ahead_take {taken waiting : List Nat} (once : (taken ++ waiting).count r ≤ 1) (ctx : Nat) :
    ahead ctx r waiting ≤ ahead ctx r (taken ++ waiting) ∧
      (r ∈ taken ++ waiting → taken ≠ [] →
        ahead ctx r waiting + (prefillBatchSize * ctx + 1) ≤ ahead ctx r (taken ++ waiting)) := by
  by_cases first : r ∈ taken
  · have gone : r ∉ waiting := by
      intro member
      rw [List.count_append] at once
      have := List.count_pos_iff.mpr first
      have := List.count_pos_iff.mpr member
      omega
    simp only [ahead, if_neg gone, if_pos (List.mem_append_left waiting first), Nat.succ_mul]
    exact ⟨Nat.zero_le _, fun _ _ => by omega⟩
  · by_cases member : r ∈ waiting
    · simp only [ahead, if_pos member, if_pos (List.mem_append_right taken member), List.idxOf_append_of_notMem first]
      refine ⟨Nat.mul_le_mul_right _ (by omega), fun _ some => ?_⟩
      rw [← Nat.succ_mul]
      have := List.length_pos_iff.mpr some
      exact Nat.mul_le_mul_right _ (by omega)
    · have never : r ∉ taken ++ waiting := by simp [first, member]
      simp only [ahead, if_neg member, if_neg never]
      exact ⟨le_rfl, fun member => absurd member never⟩

theorem ahead_append {waiting : List Nat} {next : Nat} (other : r ≠ next) :
    ahead ctx r (waiting ++ [next]) = ahead ctx r waiting := by
  by_cases member : r ∈ waiting
  · simp only [ahead, if_pos member, if_pos (List.mem_append_left _ member), List.idxOf_append_of_mem member]
  · have never : r ∉ waiting ++ [next] := by simp [member, other]
    simp only [ahead, if_neg member, if_neg never]

/-! ### A step of the worker -/

/-- What is known in every reachable state. -/
structure Watched [Slot V] (env : WorkerEnv V L K G I) (m : DecoderModel V H Q L) (greedy : L → Int)
    (record : L → Int → TokenLogprob Rat) (s : EngineState V K G) : Prop where
  counted : Inv (fun _ _ => True) (fun _ _ => True) s
  paced : Inv Worker.Paced (fun _ _ => True) s
  served : Served env m greedy record s
  drained : s.Drained
  group : s.hand.length ≤ prefillBatchSize

/-- An accepted request that is open waits, is in the worker's hand or in its queue, or has a row. -/
theorem Inv.open_placed {P : Output G → Row K → Prop} {Q : Nat → Output G → Prop} (inv : Inv P Q s) (accepted : r ∈ s.accepted)
    (opened : (s.worker.out r).closes = []) :
    r ∈ s.sched.waiting ∨ r ∈ s.hand ∨ r ∈ s.worker.pendingReqs ∨ r ∈ s.worker.reqs := by
  by_contra nowhere
  simp only [not_or] at nowhere
  obtain ⟨taken, nowhere⟩ := nowhere
  refine (inv.settled r accepted taken fun alive => ?_).1 opened
  simp only [Worker.live, List.mem_append] at alive
  tauto

/-- A row with nothing done to it, on the way to the eviction. -/
theorem rank_turns (member : r ∈ s.worker.reqs) (member' : r ∈ t.worker.reqs) (same : t.worker.out r = s.worker.out r)
    (later : s.phase < t.phase) (early : t.phase ≤ 4) : rank env ctx r t + 1 ≤ rank env ctx r s := by
  unfold rank
  rw [if_pos member, if_pos member', same]
  split
  · simp only [stepsTo]
    omega
  · simp only [toEviction, if_pos early, if_pos (show s.phase ≤ 4 by omega)]
    omega

variable [Slot V]

/-- Every step of the worker brings a row closer to its eviction. -/
theorem batched_falls (text : env.visionModel = false) (watched : Watched env m greedy record s)
    (member : r ∈ s.worker.reqs) (stepped : s.workerStep env flags = some t) :
    (t.worker.out r).closes ≠ [] ∨ rank env ctx r t + 1 ≤ rank env ctx r s := by
  have tracked : Worker.Tracked (fun _ _ => True) s.hand s.worker := watched.counted.tracked
  have rows : Worker.Tracked Worker.Paced s.hand s.worker := watched.paced.tracked
  unfold workerStep at stepped
  cases location : s.location with
  | top =>
    have here : s.phase = 0 := by rw [phase, location]
    rw [location] at stepped
    dsimp only at stepped
    split at stepped
    next idle =>
      rw [Bool.and_eq_true, List.isEmpty_iff] at idle
      rw [idle.1] at member
      cases member
    split at stepped
    · obtain rfl := Option.some.inj stepped
      exact .inr (rank_turns member member rfl (by rw [here]; exact Nat.two_pos) (show 2 ≤ 4 by decide))
    · obtain rfl := Option.some.inj stepped
      exact .inr (rank_turns member member rfl (by rw [here]; exact Nat.two_pos) (show 2 ≤ 4 by decide))
  | tookFirst first =>
    have here : s.phase = 1 := by rw [phase, location]
    rw [location] at stepped
    obtain rfl := Option.some.inj stepped
    exact .inr (rank_turns member member rfl (by rw [here]; exact Nat.lt_succ_self 1) (show 2 ≤ 4 by decide))
  | admitting incoming =>
    have here : s.phase = 2 := by rw [phase, location]
    rw [location] at stepped
    obtain ⟨w', ran, stepped⟩ := Option.bind_eq_some_iff.mp stepped
    obtain rfl := Option.some.inj stepped
    rw [hand, location] at tracked
    have grows := Worker.admitIncoming_grows text tracked (toOption_some ran)
    exact .inr (rank_turns member (grows.reqs member) (grows.outs r member) (by rw [here]; exact Nat.lt_succ_self 2)
      (show 3 ≤ 4 by decide))
  | advancing =>
    have here : s.phase = 3 := by rw [phase, location]
    rw [location] at stepped
    obtain ⟨w', ran, stepped⟩ := Option.bind_eq_some_iff.mp stepped
    obtain rfl := Option.some.inj stepped
    rw [hand, location] at tracked
    have grows := Worker.advanceChunkedPrefill_grows tracked (toOption_some ran)
    exact .inr (rank_turns member (grows.reqs member) (grows.outs r member) (by rw [here]; exact Nat.lt_succ_self 3)
      (show 4 ≤ 4 by decide))
  | evicting =>
    have here : s.phase = 4 := by rw [phase, location]
    rw [location] at stepped
    obtain rfl := Option.some.inj stepped
    obtain ⟨going, ended⟩ := Worker.evictFinished_paced rows watched.served.clean env member
    by_cases reason : (s.worker.out r).finishReason = ""
    · obtain ⟨stays, same⟩ := going reason
      right
      unfold rank
      have more : (s.worker.evictFinished env).reqs.isEmpty = false := by
        rw [List.isEmpty_eq_false_iff]
        exact List.ne_nil_of_mem stays
      dsimp only
      rw [if_pos member, if_pos stays, same, if_pos reason, if_pos reason, here, more]
      simp [stepsTo, phase]
    · exact .inl (ended reason)
  | decoding =>
    have here : s.phase = 5 := by rw [phase, location]
    rw [location] at stepped
    obtain ⟨w', ran, stepped⟩ := Option.bind_eq_some_iff.mp stepped
    obtain rfl := Option.some.inj stepped
    obtain ⟨stays, still, further⟩ := Worker.decodeStep_paced rows watched.served.clean (toOption_some ran) member
    right
    unfold rank
    dsimp only
    rw [if_pos member, if_pos stays, here]
    by_cases reason : (s.worker.out r).finishReason = ""
    · rw [if_pos reason]
      by_cases reason' : (w'.out r).finishReason = ""
      · obtain ⟨tokens, room⟩ := further reason reason'
        rw [if_pos reason', tokens]
        simp only [stepsTo, phase]
        omega
      · rw [if_neg reason']
        have done : toEviction 6 = 0 := rfl
        simp only [stepsTo, phase, done]
        omega
    · rw [still reason, if_neg reason, if_neg reason]
      exact show toEviction 6 + 1 ≤ toEviction 5 by decide
  | evictingDecoded =>
    have here : s.phase = 6 := by rw [phase, location]
    rw [location] at stepped
    obtain rfl := Option.some.inj stepped
    obtain ⟨going, ended⟩ := Worker.evictFinished_paced rows watched.served.clean env member
    by_cases reason : (s.worker.out r).finishReason = ""
    · obtain ⟨stays, same⟩ := going reason
      right
      unfold rank
      dsimp only
      rw [if_pos member, if_pos stays, same, if_pos reason, if_pos reason, here]
      simp [stepsTo, phase]
    · exact .inl (ended reason)
  | exited =>
    rw [location] at stepped
    cases stepped

omit [Slot V] in
theorem admits_le (r : Nat) (s : EngineState V K G) : s.admits r ≤ 6 := Nat.lt_succ_iff.mp (Nat.mod_lt _ (by decide))

omit [Slot V] in
/-- A step after which the request waits as before, or waits no longer. -/
theorem admits_turns (early : s.phase < 3) (later : s.phase < t.phase) (soon : t.phase ≤ 3)
    (waiting : r ∈ t.sched.waiting → r ∈ s.sched.waiting) (pending : s.worker.pending ≠ [] → t.worker.pending ≠ [])
    (front : s.phase = 0 → r ∈ s.sched.waiting → s.worker.pending ≠ []) : t.admits r + 1 ≤ s.admits r := by
  by_cases queued : r ∈ s.sched.waiting ∧ s.worker.pending = []
  · have passed : s.phase ≠ 0 := fun top => front top queued.1 queued.2
    simp only [admits, stepsTo, if_pos queued]
    split <;> omega
  · have away : ¬(r ∈ t.sched.waiting ∧ t.worker.pending = []) := fun ⟨waits, idle⟩ =>
      queued ⟨waiting waits, Classical.byContradiction fun busy => pending busy idle⟩
    simp only [admits, stepsTo, if_neg queued, if_neg away]
    omega

omit [Slot V] in
/-- A step in the second half of a turn. -/
theorem admits_returns (late : s.phase = 4 ∧ (t.phase = 5 ∨ t.phase = 0) ∨ s.phase = 5 ∧ t.phase = 6 ∨ s.phase = 6 ∧ t.phase = 0)
    (waiting : t.sched.waiting = s.sched.waiting) (pending : t.worker.pending = s.worker.pending) :
    t.admits r + 1 ≤ s.admits r := by
  simp only [admits, stepsTo, waiting, pending]
  split <;> omega

omit [Slot V] in
theorem load_idle (empty : s.hand = []) : s.load ctx = s.worker.columns := by rw [load, if_pos empty, Nat.zero_add]

omit [Slot V] in
theorem load_busy (held : s.hand ≠ []) : s.load ctx = prefillBatchSize * ctx + s.worker.columns := by
  rw [load, if_neg held]

/-- Every step of the worker brings a request that has no row closer to one. -/
theorem queued_falls (text : env.visionModel = false) (short : ∀ r, (env.request r).promptIds.length ≤ ctx)
    (watched : Watched env m greedy record s)
    (placed : r ∈ s.sched.waiting ∨ r ∈ s.hand ∨ r ∈ s.worker.pendingReqs) (stepped : s.workerStep env flags = some t) :
    7 * (ahead ctx r t.sched.waiting + t.load ctx) + t.admits r + 1 ≤
      7 * (ahead ctx r s.sched.waiting + s.load ctx) + s.admits r := by
  have tracked : Worker.Tracked (fun _ _ => True) s.hand s.worker := watched.counted.tracked
  have once : s.sched.waiting.count r ≤ 1 := by
    have once := watched.counted.once r
    rw [List.count_append] at once
    omega
  have group := watched.group
  have late := admits_le r t
  unfold workerStep at stepped
  cases location : s.location with
  | top =>
    have here : s.phase = 0 := by rw [phase, location]
    have empty : s.hand = [] := by rw [hand, location]
    -- without a unit in the queue the request waits, and some are taken in front of it
    have waits : s.worker.pending = [] → r ∈ s.sched.waiting := by
      intro idle
      rw [empty, Worker.pendingReqs, idle] at placed
      simpa using placed
    rw [load_idle empty]
    rw [location] at stepped
    dsimp only at stepped
    split at stepped
    next idle =>
      rw [Bool.and_eq_true, List.isEmpty_iff, List.isEmpty_iff] at idle
      have member := waits idle.2
      obtain ⟨⟨next, sched⟩, taken, stepped⟩ := Option.bind_eq_some_iff.mp stepped
      obtain ⟨rfl, rfl, waiting, -⟩ | ⟨first, rfl, waiting⟩ := Scheduler.nextWaiting_spec taken
      · rw [waiting] at member
        cases member
      · have after := Option.some.inj stepped
        have queue : t.sched = sched := by rw [← after]
        have worker : t.worker = s.worker := by rw [← after]
        have held : t.hand = [first] := by rw [← after]; rfl
        rw [show first :: sched.waiting = [first] ++ sched.waiting from rfl] at waiting
        rw [waiting] at once member
        have fell := (ahead_take once ctx).2 member (List.cons_ne_nil _ _)
        rw [load_busy (by rw [held]; exact List.cons_ne_nil _ _), worker, queue, waiting]
        omega
    split at stepped
    next idle =>
      rw [List.isEmpty_iff] at idle
      have member := waits idle
      have after := Option.some.inj stepped
      have queue : (s.sched.takeWaiting prefillBatchSize).1 ++ t.sched.waiting = s.sched.waiting := by
        rw [← after]
        exact Scheduler.takeWaiting_spec s.sched prefillBatchSize
      have worker : t.worker = s.worker := by rw [← after]
      have held : t.hand = (s.sched.takeWaiting prefillBatchSize).1 := by rw [← after]; rfl
      have taken : (s.sched.takeWaiting prefillBatchSize).1 ≠ [] := by
        rw [Scheduler.takeWaiting, ne_eq, List.take_eq_nil_iff, not_or]
        exact ⟨by decide, List.ne_nil_of_mem member⟩
      rw [← queue] at once member ⊢
      have fell := (ahead_take once ctx).2 member taken
      rw [load_busy (by rw [held]; exact taken), worker]
      omega
    next busy =>
      rw [List.isEmpty_iff] at busy
      have after := Option.some.inj stepped
      have queue : t.sched = s.sched := by rw [← after]
      have worker : t.worker = s.worker := by rw [← after]
      have there : t.phase = 2 := by rw [← after]; rfl
      have turned : t.admits r + 1 ≤ s.admits r := admits_turns (by omega) (by omega) (by omega) (by rw [queue]; exact id)
        (by rw [worker]; exact id) fun _ _ => busy
      rw [load_idle (by rw [← after]; rfl), worker, queue]
      omega
  | tookFirst first =>
    have here : s.phase = 1 := by rw [phase, location]
    have held : s.hand = [first] := by rw [hand, location]
    rw [location] at stepped
    have after := Option.some.inj stepped
    have queue : (s.sched.takeWaiting (prefillBatchSize - 1)).1 ++ t.sched.waiting = s.sched.waiting := by
      rw [← after]
      exact Scheduler.takeWaiting_spec s.sched (prefillBatchSize - 1)
    have worker : t.worker = s.worker := by rw [← after]
    have there : t.phase = 2 := by rw [← after]; rfl
    have held' : t.hand = first :: (s.sched.takeWaiting (prefillBatchSize - 1)).1 := by rw [← after]; rfl
    have turned : t.admits r + 1 ≤ s.admits r := admits_turns (by omega) (by omega) (by omega)
      (fun member => queue ▸ List.mem_append_right _ member) (by rw [worker]; exact id) fun top => by omega
    rw [← queue] at once ⊢
    have fell := (ahead_take once ctx).1
    rw [load_busy (by rw [held']; exact List.cons_ne_nil _ _), load_busy (by rw [held]; exact List.cons_ne_nil _ _), worker]
    omega
  | admitting incoming =>
    have here : s.phase = 2 := by rw [phase, location]
    have held : s.hand = incoming := by rw [hand, location]
    rw [location] at stepped
    obtain ⟨w', ran, stepped⟩ := Option.bind_eq_some_iff.mp stepped
    rw [held] at tracked group
    obtain ⟨before, columns⟩ :=
      Worker.admitIncoming_columns text tracked watched.served.supplied.worker short (toOption_some ran)
    have after := Option.some.inj stepped
    have queue : t.sched = s.sched := by rw [← after]
    have worker : t.worker = w' := by rw [← after]
    have there : t.phase = 3 := by rw [← after]; rfl
    have turned : t.admits r + 1 ≤ s.admits r := admits_turns (by omega) (by omega) (by omega) (by rw [queue]; exact id)
      (fun busy idle => busy (List.prefix_nil.mp ((worker ▸ idle) ▸ before))) fun top => by omega
    have lighter : w'.columns ≤ s.load ctx := by
      by_cases empty : s.hand = []
      · rw [← held, empty, List.length_nil, Nat.zero_mul] at columns
        rw [load_idle empty]
        exact columns
      · have bound := Nat.mul_le_mul_right ctx group
        rw [load_busy empty]
        omega
    rw [load_idle (by rw [← after]; rfl), worker, queue]
    omega
  | advancing =>
    have here : s.phase = 3 := by rw [phase, location]
    have empty : s.hand = [] := by rw [hand, location]
    rw [location] at stepped
    obtain ⟨w', ran, stepped⟩ := Option.bind_eq_some_iff.mp stepped
    obtain ⟨idle, fewer⟩ := Worker.advanceChunkedPrefill_columns watched.served.supplied.worker (toOption_some ran)
    have after := Option.some.inj stepped
    have queue : t.sched = s.sched := by rw [← after]
    have worker : t.worker = w' := by rw [← after]
    have there : t.phase = 4 := by rw [← after]; rfl
    rw [load_idle empty, load_idle (show t.hand = [] by rw [← after]; rfl), worker, queue]
    by_cases none : s.worker.pending = []
    · have member : r ∈ s.sched.waiting := by
        rw [empty, Worker.pendingReqs, none] at placed
        simpa using placed
      have same := idle none
      have turned : t.admits r + 1 ≤ s.admits r := by
        simp only [admits, here, there, queue, worker, same, if_pos (And.intro member none)]
        decide
      rw [same]
      omega
    · have := fewer none
      omega
  | evicting =>
    have here : s.phase = 4 := by rw [phase, location]
    have empty : s.hand = [] := by rw [hand, location]
    rw [location] at stepped
    obtain ⟨pending, -⟩ := Worker.evictFinished_pending tracked env
    have after := Option.some.inj stepped
    have queue : t.sched = s.sched := by rw [← after]
    have worker : t.worker = s.worker.evictFinished env := by rw [← after]
    have there : (t.phase = 5 ∨ t.phase = 0) ∧ t.hand = [] := by
      rw [← after]
      cases (s.worker.evictFinished env).reqs.isEmpty with
      | true => exact ⟨.inr rfl, rfl⟩
      | false => exact ⟨.inl rfl, rfl⟩
    have turned : t.admits r + 1 ≤ s.admits r :=
      admits_returns (.inl ⟨here, there.1⟩) (by rw [queue]) (by rw [worker, pending])
    rw [load_idle empty, load_idle there.2, worker, Worker.columns, pending, queue, ← Worker.columns]
    omega
  | decoding =>
    have here : s.phase = 5 := by rw [phase, location]
    have empty : s.hand = [] := by rw [hand, location]
    rw [location] at stepped
    obtain ⟨w', ran, stepped⟩ := Option.bind_eq_some_iff.mp stepped
    obtain ⟨rows, aligned, -⟩ := tracked.rows
    obtain ⟨-, -, -, -, -, -, -, -, -, pending, -⟩ :=
      Worker.decodeStep_spec aligned (tracked.rows_distinct aligned) (toOption_some ran)
    have after := Option.some.inj stepped
    have queue : t.sched = s.sched := by rw [← after]
    have worker : t.worker = w' := by rw [← after]
    have there : t.phase = 6 := by rw [← after]; rfl
    have turned : t.admits r + 1 ≤ s.admits r :=
      admits_returns (.inr (.inl ⟨here, there⟩)) (by rw [queue]) (by rw [worker, pending])
    rw [load_idle empty, load_idle (show t.hand = [] by rw [← after]; rfl), worker, Worker.columns, pending, queue,
      ← Worker.columns]
    omega
  | evictingDecoded =>
    have here : s.phase = 6 := by rw [phase, location]
    have empty : s.hand = [] := by rw [hand, location]
    rw [location] at stepped
    obtain ⟨pending, -⟩ := Worker.evictFinished_pending tracked env
    have after := Option.some.inj stepped
    have queue : t.sched = s.sched := by rw [← after]
    have worker : t.worker = s.worker.evictFinished env := by rw [← after]
    have there : t.phase = 0 := by rw [← after]; rfl
    have turned : t.admits r + 1 ≤ s.admits r :=
      admits_returns (.inr (.inr ⟨here, there⟩)) (by rw [queue]) (by rw [worker, pending])
    rw [load_idle empty, load_idle (show t.hand = [] by rw [← after]; rfl), worker, Worker.columns, pending, queue,
      ← Worker.columns]
    omega
  | exited =>
    rw [location] at stepped
    cases stepped

theorem workerStep_falls (serves : env.Serves m greedy record) (short : ∀ r, (env.request r).promptIds.length ≤ ctx)
    (watched : Watched env m greedy record s) (accepted : r ∈ s.accepted) (opened : (s.worker.out r).closes = [])
    (stepped : s.workerStep env flags = some t) :
    (t.worker.out r).closes ≠ [] ∨ rank env ctx r t + 1 ≤ rank env ctx r s := by
  by_cases member : r ∈ s.worker.reqs
  · exact batched_falls serves.text watched member stepped
  have placed := watched.counted.open_placed accepted opened
  have fell := queued_falls serves.text short watched (placed.imp_right fun more => more.imp_right fun more =>
    more.resolve_right member) stepped
  right
  unfold rank
  rw [if_neg member]
  by_cases joined : r ∈ t.worker.reqs
  · have := Nat.mod_lt (5 + 7 - t.phase) (show 0 < 7 by decide)
    rw [if_pos joined]
    split
    · simp only [stepsTo]
      omega
    · simp only [toEviction]
      split <;> omega
  · rw [if_neg joined]
    omega

/-! ### Whole runs -/

/-- The worker's steps count. -/
def turns : EngineAction → Nat
  | .worker _ => 1
  | _ => 0

/-- A client submits only while the worker is in its loop, and the evictions are prudent. -/
def Lively (env : WorkerEnv V L K G I) (s : EngineState V K G) (a : EngineAction) : Prop := s.Prudent env a ∧ s.BeforeExit a

theorem workerStep_group (stepped : s.workerStep env flags = some t) :
    t.hand.length ≤ prefillBatchSize := by
  unfold workerStep at stepped
  split at stepped
  · split at stepped
    · obtain ⟨⟨next, sched⟩, -, stepped⟩ := Option.bind_eq_some_iff.mp stepped
      cases next with
      | none =>
        obtain rfl := Option.some.inj stepped
        exact Nat.zero_le _
      | some first =>
        obtain rfl := Option.some.inj stepped
        exact show 1 ≤ prefillBatchSize by decide
    · split at stepped
      · obtain rfl := Option.some.inj stepped
        exact List.length_take_le _ _
      · obtain rfl := Option.some.inj stepped
        exact Nat.zero_le _
  · obtain rfl := Option.some.inj stepped
    exact Nat.succ_le_succ (List.length_take_le (prefillBatchSize - 1) _)
  · obtain ⟨_, -, stepped⟩ := Option.bind_eq_some_iff.mp stepped
    obtain rfl := Option.some.inj stepped
    exact Nat.zero_le _
  · obtain ⟨_, -, stepped⟩ := Option.bind_eq_some_iff.mp stepped
    obtain rfl := Option.some.inj stepped
    exact Nat.zero_le _
  · obtain rfl := Option.some.inj stepped
    cases (s.worker.evictFinished env).reqs.isEmpty with
    | true => exact Nat.zero_le _
    | false => exact Nat.zero_le _
  · obtain ⟨_, -, stepped⟩ := Option.bind_eq_some_iff.mp stepped
    obtain rfl := Option.some.inj stepped
    exact Nat.zero_le _
  · obtain rfl := Option.some.inj stepped
    exact Nat.zero_le _
  · cases stepped

theorem step_group (group : s.hand.length ≤ prefillBatchSize) (stepped : s.step env a = some t) :
    t.hand.length ≤ prefillBatchSize := by
  cases a with
  | worker flags =>
    unfold EngineState.step at stepped
    dsimp only at stepped
    split at stepped
    · exact workerStep_group stepped
    · cases stepped
  | _ =>
    obtain rfl := Option.some.inj stepped
    exact group

theorem watched_of_reachable (serves : env.Serves m greedy record) (keyed : env.prefixCfg.enabled = true → env.Keyed)
    (reached : Reachable (step env) (Lively env) (start env maxWaiting) s) : Watched env m greedy record s where
  counted := inv_of_reachable anyLaw (fun s a _ => any_careful s a) reached
  paced := by
    refine inv_of_reachable (Worker.paced_law env) (fun s a _ => ?_) reached
    cases a with
    | worker flags => exact fun _ => .inl fun paced => ⟨paced.opened, paced.produced, paced.going⟩
    | _ => trivial
  served := served_of_reachable serves keyed (reached.mono fun _ _ lively => lively.1)
  drained := reached.invariant (P := Drained) (fun exit => by cases exit) fun drained lively stepped =>
    drained.step lively.2 stepped
  group := by
    induction reached with
    | refl => exact Nat.zero_le _
    | tail _ _ stepped ih => exact step_group ih stepped

/-- A closed request is done. -/
theorem Watched.done (watched : Watched env m greedy record s) (accepted : r ∈ s.accepted)
    (closed : (s.worker.out r).closes ≠ []) : s.Done r := by
  refine ⟨accepted, fun waits => closed (watched.counted.untaken r (.inl waits)).closes, fun alive => closed ?_⟩
  rcases List.mem_append.mp alive with taken | member
  · exact (watched.counted.tracked.fresh r taken).closes
  · obtain ⟨rows, row, -, -, -, -, pace, -⟩ := Worker.paced_row watched.paced.tracked watched.served.clean member
    exact pace.opened

/-- What the clients do does not put a request back. -/
theorem step_falls (serves : env.Serves m greedy record) (short : ∀ r, (env.request r).promptIds.length ≤ ctx)
    (watched : Watched env m greedy record s) (accepted : r ∈ s.accepted) (opened : (s.worker.out r).closes = [])
    (stepped : s.step env a = some t) :
    (t.worker.out r).closes ≠ [] ∨ rank env ctx r t + turns a ≤ rank env ctx r s := by
  cases a with
  | submit =>
    have other : r ≠ s.next := (watched.counted.numbered r accepted).ne
    simp only [EngineState.step, Option.some.injEq] at stepped
    have sched : t.sched = (s.sched.submit s.next).2 := by rw [← stepped]
    have queue : ahead ctx r t.sched.waiting = ahead ctx r s.sched.waiting ∧
        (r ∈ t.sched.waiting ↔ r ∈ s.sched.waiting) := by
      rw [sched]
      rcases Scheduler.submit_spec s.sched s.next with ⟨-, waiting⟩ | ⟨-, waiting⟩
      · rw [waiting]
        exact ⟨ahead_append other, by simp [other]⟩
      · rw [waiting]
        exact ⟨rfl, Iff.rfl⟩
    have worker : t.worker = s.worker := by rw [← stepped]
    have there : t.phase = s.phase ∧ t.hand = s.hand := by rw [← stepped]; exact ⟨rfl, rfl⟩
    right
    simp only [rank, admits, load, queue, worker, there]
    exact le_rfl
  | cancel r' =>
    obtain rfl := Option.some.inj stepped
    exact .inr le_rfl
  | stop =>
    obtain rfl := Option.some.inj stepped
    exact .inr le_rfl
  | worker flags =>
    unfold EngineState.step at stepped
    dsimp only at stepped
    split at stepped
    · exact workerStep_falls serves short watched accepted opened stepped
    · cases stepped

theorem Watched.accepted (watched : Watched env m greedy record s) (stepped : s.step env a = some t)
    (accepted : r ∈ s.accepted) : r ∈ t.accepted := by
  cases a with
  | submit =>
    obtain rfl := Option.some.inj stepped
    dsimp only
    split
    · exact List.mem_append_left _ accepted
    · exact accepted
  | worker flags =>
    unfold EngineState.step at stepped
    dsimp only at stepped
    split at stepped
    · rw [(workerStep_worked anyLaw watched.counted (any_careful s (.worker flags)) stepped).accepted]
      exact accepted
    · cases stepped
  | _ =>
    obtain rfl := Option.some.inj stepped
    exact accepted

/-- The worker does not wait while a request is open. -/
theorem Watched.busy (watched : Watched env m greedy record s) (accepted : r ∈ s.accepted)
    (opened : (s.worker.out r).closes = []) : ¬s.Idle := by
  have placed := watched.counted.open_placed accepted opened
  rintro (exit | ⟨top, reqs, pending, waiting, -⟩)
  · obtain ⟨waiting, pending, reqs⟩ := watched.drained exit
    rw [waiting, hand, exit, Worker.pendingReqs, pending, reqs] at placed
    simp at placed
  · rw [waiting, hand, top, Worker.pendingReqs, pending, reqs] at placed
    simp at placed

omit [Slot V] in
/-- The rank, bounded by the queue, the prefill work and the request's tokens. -/
theorem rank_lt (env : WorkerEnv V L K G I) (ctx r : Nat) (s : EngineState V K G) : rank env ctx r s <
    7 * ((s.sched.waiting.length + 1) * (prefillBatchSize * ctx + 1) + s.worker.columns + (env.request r).maxTokens.toNat + 2) := by
  have turn := admits_le r s
  have part : stepsTo s.phase 5 < 7 := Nat.mod_lt _ (by decide)
  have front : ahead ctx r s.sched.waiting ≤ s.sched.waiting.length * (prefillBatchSize * ctx + 1) := by
    unfold ahead
    split
    next member => exact Nat.mul_le_mul_right _ (List.idxOf_lt_length_of_mem member)
    next => exact Nat.zero_le _
  have heavy : s.load ctx ≤ prefillBatchSize * ctx + s.worker.columns := by
    unfold load
    split <;> omega
  have soon : toEviction s.phase ≤ 4 := by
    unfold toEviction
    split <;> omega
  rw [Nat.succ_mul s.sched.waiting.length]
  unfold rank
  split
  · split <;> omega
  · omega

omit [Slot V] in
instance (env : WorkerEnv V L K G I) (s : EngineState V K G) (a : EngineAction) : Decidable (s.Lively env a) :=
  inferInstanceAs (Decidable ((env.prefixCfg.enabled = true → s.Orderly a) ∧ s.BeforeExit a))

/-- Another request is submitted beside the first one, and cancelled. -/
def besideAnother : List EngineAction :=
  [.worker [], .submit, .worker [], .worker [], .cancel 1, .worker [], .worker []]

end EngineState

end Mlxforge
