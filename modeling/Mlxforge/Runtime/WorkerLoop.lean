import Mlxforge.Lib.Transition
import Mlxforge.Runtime.WorkerRows
import Mlxforge.Scheduler.Scheduler

/-!
The worker's loop among its clients: any number of threads submit and cancel requests and stop the scheduler, while the
worker takes requests and turns its loop. A loop turn is cut at the points where the batch is whole.
-/

namespace Mlxforge

variable {V L K G I : Type}

/-- Where `Worker::run` stands. -/
inductive RunAt where
  | top
  /-- The blocking `next_waiting` returned a request; the rest of its group is still to be taken. -/
  | tookFirst (r : Nat)
  | admitting (incoming : List Nat)
  | advancing | evicting | decoding | evictingDecoded
  | exited
  deriving DecidableEq, Repr

/-- Requests are numbered in the order of their `submit` calls. -/
structure EngineState (V K G : Type) where
  sched : Scheduler := {}
  next : Nat := 0
  accepted : List Nat := []
  cancelled : List Nat := []
  location : RunAt := .top
  worker : Worker V K G

inductive EngineAction where
  | submit
  | cancel (r : Nat)
  | stop
  /-- A step of the worker, which finds the `cancelled` flags of `flags` set. -/
  | worker (flags : List Nat)

namespace EngineState

variable [Slot V] (env : WorkerEnv V L K G I)

/-- One step of `run`; no step while `next_waiting` waits, after the exit, and where the worker throws. -/
def workerStep (flags : List Nat) (s : EngineState V K G) : Option (EngineState V K G) :=
  match s.location with
  | .top =>
    if s.worker.reqs.isEmpty && s.worker.pending.isEmpty then do
      let (r, sched) ← s.sched.nextWaiting
      match r with
      | none => return { s with sched, location := .exited }
      | some r => return { s with sched, location := .tookFirst r }
    else if s.worker.pending.isEmpty then
      let (incoming, sched) := s.sched.takeWaiting prefillBatchSize
      some { s with sched, location := .admitting incoming }
    else some { s with location := .admitting [] }
  | .tookFirst r =>
    let (more, sched) := s.sched.takeWaiting (prefillBatchSize - 1)
    some { s with sched, location := .admitting (r :: more) }
  | .admitting incoming => do
    let worker ← (s.worker.admitIncoming env flags incoming).toOption
    return { s with worker, location := .advancing }
  | .advancing => do
    let worker ← (s.worker.advanceChunkedPrefill env flags).toOption
    return { s with worker, location := .evicting }
  | .evicting =>
    let worker := s.worker.evictFinished env
    some { s with worker, location := if worker.reqs.isEmpty then .top else .decoding }
  | .decoding => do
    let worker ← (s.worker.decodeStep env flags).toOption
    return { s with worker, location := .evictingDecoded }
  | .evictingDecoded => some { s with worker := s.worker.evictFinished env, location := .top }
  | .exited => none

def step (s : EngineState V K G) : EngineAction → Option (EngineState V K G)
  | .submit =>
    let (ok, sched) := s.sched.submit s.next
    some { s with sched, next := s.next + 1, accepted := if ok then s.accepted ++ [s.next] else s.accepted }
  | .cancel r => some { s with cancelled := r :: s.cancelled }
  | .stop => some { s with sched := s.sched.stop }
  | .worker flags => if flags ⊆ s.cancelled then s.workerStep env flags else none

/-- A fresh engine with a bounded or unbounded (0) waiting queue. -/
def start (maxWaiting : Int) : EngineState V K G where
  sched := { maxWaiting }
  worker := {
    prefixPool := if env.prefixCfg.enabled then some (PrefixCache.new env.prefixCfg) else none
    out := fun r => { promptIds := (env.request r).promptIds } }

end EngineState

/-! ### Where a request is -/

namespace Worker

variable {env : WorkerEnv V L K G I} {hand hand' hand'' : List Nat} {w w' w'' : Worker V K G}
  {P : Output G → Row K → Prop} {Q : Nat → Output G → Prop}

def pendingReqs (w : Worker V K G) : List Nat := w.pending.flatMap (·.reqs)

/-- The requests not dealt with yet: `hand` is what the worker has not registered or queued. -/
def live (hand : List Nat) (w : Worker V K G) : List Nat := hand ++ w.pendingReqs ++ w.reqs

/-- No merge and no sampling threw in an admission. -/
def Clean (w : Worker V K G) : Prop := ∀ e ∈ w.errors, e.2 = .prepare

/-- Its registration threw: the request was failed and closed, and yet it stands in the batch. -/
def Botched (w : Worker V K G) (r : Nat) : Prop := (r, AdmitStage.register) ∈ w.errors

/-- No token was emitted, and the request is neither closed nor about to be. -/
structure Untouched (o : Output G) : Prop where
  tokens : o.tokens = []
  closes : o.closes = []
  finishReason : o.finishReason = ""

/-- `P` holds of a row and its request's output from the first token on, and `Q` of a request and its output once it is
closed. -/
structure RowLaw (env : WorkerEnv V L K G I) (P : Output G → Row K → Prop) (Q : Nat → Output G → Prop) : Prop where
  first : ∀ {flags before r l row after}, Untouched before → Registered env flags before r l row after → P after row
  next : ∀ {flags before row l row' after}, P before row → Decoded env flags before row l row' after → P after row'
  evicted : ∀ {o row}, P o row → row.finished = true → o.finishReason ≠ "" → Q row.req o.close
  quit : ∀ {r} {o : Output G}, o.tokens = [] → o.closes = [] → o.finishReason = "error" ∨ o.finishReason = "embed" →
    Q r o.close

/-- The cache holds one row a request, in the order of the rows. -/
def CacheOk (w : Worker V K G) : Prop :=
  match w.cache with
  | none => w.reqs = []
  | some cache => cache.batch = w.reqs.length ∧ w.owners = w.reqs

/-- What every step of the worker keeps. -/
structure Tracked (P : Output G → Row K → Prop) (hand : List Nat) (w : Worker V K G) : Prop where
  once : ∀ r, (live hand w).count r ≤ 1
  fresh : ∀ r ∈ hand ++ w.pendingReqs, Untouched (w.out r)
  rows : ∃ rows, w.Aligned rows ∧ ∀ row ∈ rows, (row.finished = true → (w.out row.req).finishReason ≠ "") ∧
    (¬w.Botched row.req → P (w.out row.req) row)
  cache : w.Clean → w.CacheOk
  units : ∀ p ∈ w.pending, p.cache.batch = p.reqs.length

/-- What an operation may do to requests: one that is not live is left alone, and one that stops being live is closed. -/
structure Moves (Q : Nat → Output G → Prop) (hand hand' : List Nat) (w w' : Worker V K G) : Prop where
  within : ∀ r, (live hand' w').count r ≤ (live hand w).count r
  errors : ∀ e ∈ w.errors, e ∈ w'.errors
  settled : ∀ r ∉ live hand w, w'.out r = w.out r
  dropped : ∀ r ∈ live hand w, r ∉ live hand' w' → (w'.out r).closes ≠ [] ∧ (¬w'.Botched r → Q r (w'.out r))

theorem Moves.mem (moves : Moves Q hand hand' w w') {r : Nat} (member : r ∈ live hand' w') : r ∈ live hand w :=
  List.count_pos_iff.mp (Nat.lt_of_lt_of_le (List.count_pos_iff.mpr member) (moves.within r))

theorem Moves.trans (first : Moves Q hand hand' w w') (second : Moves Q hand' hand'' w' w'') :
    Moves Q hand hand'' w w'' where
  within := fun r => (second.within r).trans (first.within r)
  errors := fun e member => second.errors e (first.errors e member)
  settled := by
    intro r absent
    rw [second.settled r fun member => absent (first.mem member), first.settled r absent]
  dropped := by
    intro r member absent
    by_cases between : r ∈ live hand' w'
    · exact second.dropped r between absent
    · obtain ⟨closed, done⟩ := first.dropped r member between
      rw [second.settled r between]
      exact ⟨closed, fun whole => done fun botched => whole (second.errors _ botched)⟩

/-- Moves that only hand requests around. -/
theorem Moves.of_count (count : ∀ r, (live hand' w').count r = (live hand w).count r)
    (errors : ∀ e ∈ w.errors, e ∈ w'.errors) (settled : ∀ r ∉ live hand w, w'.out r = w.out r) :
    Moves Q hand hand' w w' where
  within := fun r => (count r).le
  errors := errors
  settled := settled
  dropped := by
    intro r member absent
    exact absurd (List.count_pos_iff.mp ((count r).symm ▸ List.count_pos_iff.mpr member)) absent

theorem Tracked.perm (tracked : Tracked P hand w) (order : hand.Perm hand') : Tracked P hand' w where
  once := by
    intro r
    have once := tracked.once r
    simp only [live, List.count_append] at once ⊢
    rw [← order.count_eq]
    exact once
  fresh := by
    intro r member
    refine tracked.fresh r ?_
    rw [List.mem_append] at member ⊢
    exact member.imp_left order.mem_iff.mpr
  rows := tracked.rows
  cache := tracked.cache
  units := tracked.units

theorem Moves.of_perm (order : hand.Perm hand') : Moves Q hand hand' w w :=
  .of_count (fun r => by simp only [live, List.count_append, order.count_eq]) (fun _ member => member) fun _ _ => rfl

end Worker

end Mlxforge
