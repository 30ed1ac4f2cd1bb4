import Mlxforge.Runtime.EngineRuns
import Mlxforge.Runtime.PrefillAgreement

/-!
Lifecycle of a request: in one place at a time, closed once, never touched again, and its row describes it in every
row-aligned vector, as long as no eviction leaves rows in place ahead of an evicted one. And what a shutdown leaves.
-/

namespace Mlxforge

open Transition (Reachable Free)
open Worker (RowLaw Registered Decoded Untouched live freshRow compiled keyUsed)

variable {V L K G I : Type}

/-- What a row says of its request: `produced` tokens were pushed, the last one is fed next, the key was split once a
token, and the history is the whole sequence so far. -/
structure RowOk (env : WorkerEnv V L K G I) (o : Output G) (row : Row K) : Prop where
  opened : o.closes = []
  produced : row.produced = o.tokens.length
  fed : row.finished = false → o.tokens.getLast? = some row.feed
  key : row.finished = false →
    row.key = (fun key => (env.split key).1)^[o.tokens.length] (env.key (env.request row.req).params.seed)
  history : row.finished = false → row.history = o.promptIds ++ o.tokens

/-- The close of a request names why it ended. -/
def ClosedOnce (o : Output G) : Prop := ∃ reason, reason ≠ "" ∧ o.closes = [reason]

section
variable {env : WorkerEnv V L K G I} {flags : List Nat} {before after : Output G} {r : Nat} {l : L} {row row' : Row K}

variable (row) in
/-- The row after a token was emitted: the three outcomes of `consume`. -/
theorem emitted_ok {o : Output G} {s : Sampled} (opened : o.closes = []) (req : row.req = r)
    (produced : row.produced = o.tokens.length)
    (key : row.key = (fun key => (env.split key).1)^[o.tokens.length + 1] (env.key (env.request r).params.seed))
    (history : row.history = o.promptIds ++ o.tokens) :
    RowOk env (Output.consume (env.request r) o row.produced s).1
      { row with
        feed := s.id
        history := row.history ++ [s.id]
        produced := (Output.consume (env.request r) o row.produced s).2.1
        finished := if (Output.consume (env.request r) o row.produced s).2.2 then true else row.finished } := by
  have spec := Output.consume_spec (env.request r) row.produced s opened
  generalize Output.consume (env.request r) o row.produced s = c at *
  obtain ⟨o', n', done⟩ := c
  obtain ⟨⟨prompt, _, closes⟩, ⟨_, tokens, _, result⟩ | ⟨_, _, tokens, _, result⟩ | ⟨_, _, tokens, _, result⟩⟩ := spec
  all_goals
    obtain ⟨rfl, rfl⟩ := Prod.mk.inj result
    simp only at tokens prompt closes
  · exact ⟨closes, by simp [tokens, produced], by simp, by simp, by simp⟩
  · exact ⟨closes, by simp [tokens, produced], by simp, by simp, by simp⟩
  · refine ⟨closes, by simp [tokens, produced], fun _ => by simp [tokens], fun _ => ?_, fun _ => ?_⟩
    · simp only [tokens, List.length_append, List.length_singleton, req]
      exact key
    · rw [tokens, prompt, ← List.append_assoc, history]

theorem Worker.Registered.ok (registered : Registered env flags before r l row after) (untouched : Untouched before) :
    RowOk env after row := by
  obtain ⟨s, _, ran⟩ := registered
  have opened := untouched.closes
  have tokens := untouched.tokens
  simp only [Worker.firstToken] at ran
  split at ran
  · obtain ⟨rfl, rfl⟩ := Prod.mk.inj ran
    exact ⟨by simp [Worker.advanceGrammar, opened], by simp [Worker.advanceGrammar, keyUsed, freshRow, tokens], by simp,
      by simp, by simp⟩
  · obtain ⟨rfl, rfl⟩ := Prod.mk.inj ran
    exact emitted_ok (keyUsed env (freshRow env before r)) (r := r)
      (o := Worker.advanceGrammar env (compiled env r before) s.id) (by simp [Worker.advanceGrammar, opened]) rfl
      (by simp [Worker.advanceGrammar, keyUsed, freshRow, tokens])
      (by simp [Worker.advanceGrammar, keyUsed, freshRow, tokens])
      (by simp [Worker.advanceGrammar, keyUsed, freshRow, tokens])

theorem Worker.Decoded.ok (decoded : Decoded env flags before row l row' after) (ok : RowOk env before row) :
    RowOk env after row' := by
  obtain ⟨s, _, ran⟩ := decoded
  simp only [Worker.nextToken] at ran
  split at ran
  · rename_i done
    obtain ⟨rfl, rfl⟩ := Prod.mk.inj ran
    have finished : row.finished = true := done
    exact ⟨ok.opened, ok.produced, by simp [keyUsed, finished], by simp [keyUsed, finished], by simp [keyUsed, finished]⟩
  · split at ran
    · obtain ⟨rfl, rfl⟩ := Prod.mk.inj ran
      exact ⟨ok.opened, ok.produced, by simp, by simp, by simp⟩
    · rename_i unfinished _
      have unfinished : row.finished = false := by simpa [keyUsed] using unfinished
      obtain ⟨rfl, rfl⟩ := Prod.mk.inj ran
      refine emitted_ok (keyUsed env row) (o := Worker.advanceGrammar env before s.id) (r := row.req) ok.opened rfl
        ok.produced ?_ (ok.history unfinished)
      rw [Function.iterate_succ_apply']
      exact congrArg (fun key => (env.split key).1) (ok.key unfinished)

theorem rowOk_law (env : WorkerEnv V L K G I) : RowLaw env (RowOk env) fun _ => ClosedOnce where
  first untouched registered := registered.ok untouched
  next ok decoded := decoded.ok ok
  evicted ok _ reason := ⟨_, reason, by simp [Output.close, ok.opened]⟩
  quit := by
    intro _ o _ opened reason
    refine ⟨o.finishReason, ?_, by simp [Output.close, opened]⟩
    rcases reason with h | h <;> rw [h] <;> decide

end

namespace EngineState

/-- Wherever the worker evicts next and a row is removed, the row in front is. -/
def Orderly (s : EngineState V K G) : EngineAction → Prop
  | .worker _ => s.location = .evicting ∨ s.location = .evictingDecoded → s.worker.FrontFirst
  | _ => True

theorem orderly_careful {P : Output G → Row K → Prop} (s : EngineState V K G) (a : EngineAction) (orderly : s.Orderly a) :
    s.Careful P a := by
  cases a with
  | worker flags => exact fun evicts => .inr (orderly evicts)
  | _ => trivial

/-- Every request taken from the scheduler is in one place; what is closed was closed once, with a reason; and the rows
of vectors and cache describe the same requests. -/
structure Conserved (env : WorkerEnv V L K G I) (s : EngineState V K G) : Prop where
  place : ∀ r ∈ s.accepted, r ∉ s.sched.waiting → s.hand.count r + s.worker.pendingReqs.count r +
    s.worker.reqs.count r + (if (s.worker.out r).closes = [] then 0 else 1) = 1
  boundary : s.location = .top → s.hand = []
  closed : ∀ r, (s.worker.out r).closes = [] ∨ ClosedOnce (s.worker.out r)
  rows : ∃ rows, s.worker.Aligned rows ∧ ∀ row ∈ rows, RowOk env (s.worker.out row.req) row
  cache : s.worker.CacheOk

variable [Slot V] {env : WorkerEnv V L K G I} {s t : EngineState V K G} {maxWaiting : Int}

omit [Slot V] in
/-- What is live is open, and what is closed is done. -/
theorem Inv.closes (inv : Inv (RowOk env) (fun _ => ClosedOnce) s) (clean : s.worker.Clean) (r : Nat) :
    ((s.worker.out r).closes = [] ∧ ¬s.Done r) ∨ (ClosedOnce (s.worker.out r) ∧ s.Done r) := by
  have whole : ¬s.worker.Botched r := fun botched => by cases clean _ botched
  by_cases out : r ∈ s.sched.waiting ∨ r ∉ s.accepted
  · refine .inl ⟨(inv.untaken r out).closes, fun done => ?_⟩
    exact out.elim done.2.1 fun rejected => rejected done.1
  · rw [not_or, not_not] at out
    by_cases alive : r ∈ live s.hand s.worker
    · refine .inl ⟨?_, fun done => done.2.2 alive⟩
      rcases List.mem_append.mp alive with early | among
      · exact (inv.tracked.fresh r early).closes
      · obtain ⟨rows, aligned, old⟩ := inv.tracked.rows
        rw [aligned.reqs] at among
        obtain ⟨row, member, rfl⟩ := List.mem_map.mp among
        exact ((old row member).2 whole).opened
    · exact .inr ⟨(inv.settled r out.2 out.1 alive).2 whole, out.2, out.1, alive⟩

/-- Over every run in which evictions take the row in front, requests are conserved, and a closed request is left
alone for good. -/
theorem conserved (reached : Reachable (step env) Orderly (start env maxWaiting) s) (clean : s.worker.Clean) :
    Conserved env s ∧ ∀ t, Reachable (step env) Orderly s t → ∀ r, (s.worker.out r).closes ≠ [] →
      t.worker.out r = s.worker.out r := by
  have inv : Inv (RowOk env) (fun _ => ClosedOnce) s := inv_of_reachable (rowOk_law env) orderly_careful reached
  have closes := inv.closes clean
  constructor
  · refine ⟨fun r accepted taken => ?_, fun top => by rw [hand, top], fun r => ?_, ?_, inv.tracked.cache clean⟩
    · have once := inv.tracked.once r
      have counts : (live s.hand s.worker).count r =
          s.hand.count r + s.worker.pendingReqs.count r + s.worker.reqs.count r := by
        simp only [live, List.count_append]
      rcases closes r with ⟨opened, active⟩ | ⟨⟨reason, -, closed⟩, done⟩
      · have alive : r ∈ live s.hand s.worker := by
          by_contra gone
          exact active ⟨accepted, taken, gone⟩
        have := List.count_pos_iff.mpr alive
        rw [if_pos opened]
        omega
      · have := List.count_eq_zero.mpr done.2.2
        rw [if_neg (by simp [closed])]
        omega
    · exact (closes r).imp And.left And.left
    · obtain ⟨rows, aligned, old⟩ := inv.tracked.rows
      exact ⟨rows, aligned, fun row member => (old row member).2 fun botched => by cases clean _ botched⟩
  · intro t later r closed
    obtain ⟨opened, -⟩ | ⟨-, done⟩ := closes r
    · exact absurd opened closed
    · exact done.run (rowOk_law env) orderly_careful inv later

/-! ### Shutdown -/

/-- No client submits once the worker has left its loop. -/
def BeforeExit (s : EngineState V K G) : EngineAction → Prop
  | .submit => s.location ≠ .exited
  | _ => True

/-- The worker leaves its loop with nothing waiting, and nothing comes after. -/
def Drained (s : EngineState V K G) : Prop :=
  s.location = .exited → s.sched.waiting = [] ∧ s.worker.pending = [] ∧ s.worker.reqs = []

theorem workerStep_drained {flags : List Nat} (stepped : s.workerStep env flags = some t) : t.Drained := by
  unfold workerStep at stepped
  intro exit
  split at stepped
  · split at stepped
    · rename_i idle
      obtain ⟨⟨r, sched⟩, next, stepped⟩ := Option.bind_eq_some_iff.mp stepped
      obtain ⟨rfl, rfl, waiting, -⟩ | ⟨r, rfl, -⟩ := Scheduler.nextWaiting_spec next
      · obtain rfl := Option.some.inj stepped
        rw [Bool.and_eq_true, List.isEmpty_iff, List.isEmpty_iff] at idle
        exact ⟨waiting, idle.2, idle.1⟩
      · obtain rfl := Option.some.inj stepped
        cases exit
    · split at stepped
      · obtain rfl := Option.some.inj stepped
        cases exit
      · obtain rfl := Option.some.inj stepped
        cases exit
  · obtain rfl := Option.some.inj stepped
    cases exit
  · obtain ⟨_, -, stepped⟩ := Option.bind_eq_some_iff.mp stepped
    obtain rfl := Option.some.inj stepped
    cases exit
  · obtain ⟨_, -, stepped⟩ := Option.bind_eq_some_iff.mp stepped
    obtain rfl := Option.some.inj stepped
    cases exit
  · obtain rfl := Option.some.inj stepped
    dsimp only at exit
    split at exit <;> cases exit
  · obtain ⟨_, -, stepped⟩ := Option.bind_eq_some_iff.mp stepped
    obtain rfl := Option.some.inj stepped
    cases exit
  · obtain rfl := Option.some.inj stepped
    cases exit
  · cases stepped

theorem Drained.step {a : EngineAction} (drained : s.Drained) (before : s.BeforeExit a)
    (stepped : s.step env a = some t) : t.Drained := by
  cases a with
  | submit =>
    obtain rfl := Option.some.inj stepped
    exact fun exit => absurd exit before
  | cancel r =>
    obtain rfl := Option.some.inj stepped
    exact drained
  | stop =>
    obtain rfl := Option.some.inj stepped
    exact drained
  | worker flags =>
    unfold EngineState.step at stepped
    dsimp only at stepped
    split at stepped
    · exact workerStep_drained stepped
    · cases stepped

/-- When the worker has left its loop, every accepted request was taken from the queue and closed, unless it was
submitted after the exit. -/
theorem none_stranded (reached : Reachable (step env) BeforeExit (start env maxWaiting) s) (exit : s.location = .exited)
    {r : Nat} (accepted : r ∈ s.accepted) : r ∉ s.sched.waiting ∧ (s.worker.out r).closes ≠ [] := by
  have drained : s.Drained := reached.invariant (fun exit => by cases exit) Drained.step
  have inv : Inv (fun _ _ => True) (fun _ _ => True) s := inv_of_reachable anyLaw (fun s a _ => any_careful s a) reached
  obtain ⟨waiting, pending, reqs⟩ := drained exit
  have taken : r ∉ s.sched.waiting := by simp [waiting]
  have gone : r ∉ live s.hand s.worker := by simp [live, hand, exit, Worker.pendingReqs, pending, reqs]
  exact ⟨taken, (inv.settled r accepted taken gone).1⟩

/-! ### Two requests over a small model -/

/-- Request `r` asks for `limit r` tokens, and every sampled token is 1. -/
def twoRequests (limit : Nat → Int) : WorkerEnv Int Int Unit Unit Unit where
  request := fun r => { promptIds := [1], maxTokens := limit r }
  model := tinyModel.loaded
  nbytes := fun _ => 0
  key := fun _ => ()
  split := fun _ => ((), ())
  sample := fun _ _ _ _ => .ok (1, ⟨1, 0, []⟩)
  fromSchemaString := fun _ => ()
  grammarMask := fun _ _ l => l
  grammarAdvance := fun _ _ => ()
  embedPooled := fun _ _ _ => .ok []
  decodeImage := fun _ => .ok ()
  renderMultimodalPrompt := fun _ _ => .ok []
  prefillMultimodal := fun _ _ => .error .multimodal
  prefillMultimodal_batch := by nofun
  torn := fun cache _ => cache

/-- Both requests are admitted together, get their first token, and the finished ones are evicted. -/
def admitBoth : List EngineAction :=
  [.submit, .submit, .worker [], .worker [], .worker [], .worker [], .worker []]

instance (w : Worker V K G) : Decidable w.FrontFirst :=
  inferInstanceAs (Decidable (w.finished.any id = true → w.finished.head? = some true))

instance (s : EngineState V K G) (a : EngineAction) : Decidable (s.Orderly a) :=
  match a with
  | .worker _ =>
    inferInstanceAs (Decidable (s.location = .evicting ∨ s.location = .evictingDecoded → s.worker.FrontFirst))
  | .submit => isTrue trivial
  | .cancel _ => isTrue trivial
  | .stop => isTrue trivial

instance (s : EngineState V K G) (a : EngineAction) : Decidable (s.BeforeExit a) :=
  match a with
  | .submit => inferInstanceAs (Decidable (s.location ≠ .exited))
  | .worker _ => isTrue trivial
  | .cancel _ => isTrue trivial
  | .stop => isTrue trivial

/-- The request in front finishes first: the other's row moves to the front with its history. -/
theorem conserved_admission : ∃ s, Reachable (step (twoRequests fun r => if r = 0 then 1 else 5)) Orderly
      (start (twoRequests fun r => if r = 0 then 1 else 5) 0) s ∧ s.worker.reqs = [1] ∧ s.worker.history = [[1, 1]] ∧
      Conserved (twoRequests fun r => if r = 0 then 1 else 5) s := by
  have run : (admitBoth.foldlM (fun s a => if Orderly s a then
      step (twoRequests fun r => if r = 0 then 1 else 5) s a else none)
        (start (twoRequests fun r => if r = 0 then 1 else 5) 0)).map
          (fun s => decide (s.worker.reqs = [1] ∧ s.worker.history = [[1, 1]] ∧ s.worker.errors = [])) = some true := by
    decide +kernel
  obtain ⟨s, ran, columns⟩ := Option.map_eq_some_iff.mp run
  obtain ⟨reqs, history, errors⟩ := of_decide_eq_true columns
  have reached := Reachable.of_allowed ran
  have clean : s.worker.Clean := fun e member => by rw [errors] at member; cases member
  exact ⟨s, reached, reqs, history, (conserved reached clean).1⟩

/-- The other request finishes first: the row in front stays in place, and its history is moved onto itself and lost. -/
theorem conserved_fails_in_place : ∃ s, Reachable (step (twoRequests fun r => if r = 0 then 5 else 1)) Free
      (start (twoRequests fun r => if r = 0 then 5 else 1) 0) s ∧ s.worker.Clean ∧
      s.worker.reqs = [0] ∧ s.worker.history = [[]] ∧ ¬Conserved (twoRequests fun r => if r = 0 then 5 else 1) s := by
  have run : (admitBoth.foldlM (step (twoRequests fun r => if r = 0 then 5 else 1))
      (start (twoRequests fun r => if r = 0 then 5 else 1) 0)).map
        (fun s => decide (s.worker.reqs = [0] ∧ s.worker.history = [[]] ∧ s.worker.errors = [] ∧
          s.worker.finished = [false])) = some true := by
    decide +kernel
  obtain ⟨s, ran, columns⟩ := Option.map_eq_some_iff.mp run
  obtain ⟨reqs, history, errors, finished⟩ := of_decide_eq_true columns
  have clean : s.worker.Clean := fun e member => by rw [errors] at member; cases member
  refine ⟨s, Reachable.of_foldlM ran, clean, reqs, history, ?_⟩
  intro conserved
  obtain ⟨rows, aligned, ok⟩ := conserved.rows
  have single : rows.length = 1 := by rw [← aligned.length, reqs, List.length_singleton]
  obtain ⟨row, rfl⟩ := List.length_eq_one_iff.mp single
  have lost : row.history = [] := by simpa [history] using aligned.history.symm
  have unfinished : row.finished = false := by simpa [finished] using aligned.finished.symm
  have row_ok := ok row (List.mem_singleton_self row)
  have fed := row_ok.fed unfinished
  have whole := row_ok.history unfinished
  rw [lost, eq_comm, List.append_eq_nil_iff] at whole
  rw [whole.2] at fed
  cases fed

/-- A request submitted before the stop is answered before the worker leaves. -/
theorem none_stranded_last : ∃ s, Reachable (step (twoRequests fun _ => 1)) BeforeExit (start (twoRequests fun _ => 1) 0) s ∧
    s.location = .exited ∧ s.accepted = [0] ∧ 0 ∉ s.sched.waiting ∧ (s.worker.out 0).closes ≠ [] := by
  have run : ((.submit :: .stop :: List.replicate 6 (.worker [])).foldlM (fun s a => if BeforeExit s a then
      step (twoRequests fun _ => 1) s a else none) (start (twoRequests fun _ => 1) 0)).map
        (fun s => decide (s.location = .exited ∧ s.accepted = [0])) = some true := by
    decide +kernel
  obtain ⟨s, ran, columns⟩ := Option.map_eq_some_iff.mp run
  obtain ⟨exit, accepted⟩ := of_decide_eq_true columns
  have reached := Reachable.of_allowed ran
  exact ⟨s, reached, exit, accepted, none_stranded reached exit (r := 0) (by rw [accepted]; exact List.mem_singleton_self 0)⟩

/-- A request submitted after the worker left is accepted and stays in the queue. -/
theorem stranded_after_exit : ∃ s, Reachable (step (twoRequests fun _ => 1)) Free (start (twoRequests fun _ => 1) 0) s ∧
    s.location = .exited ∧ 0 ∈ s.accepted ∧ 0 ∈ s.sched.waiting ∧ (s.worker.out 0).closes = [] := by
  have run : ([.stop, .worker [], .submit].foldlM (step (twoRequests fun _ => 1)) (start (twoRequests fun _ => 1) 0)).map
      (fun s => decide (s.location = .exited ∧ 0 ∈ s.accepted ∧ 0 ∈ s.sched.waiting ∧ (s.worker.out 0).closes = [])) =
        some true := by
    decide +kernel
  obtain ⟨s, ran, stranded⟩ := Option.map_eq_some_iff.mp run
  exact ⟨s, Reachable.of_foldlM ran, of_decide_eq_true stranded⟩

end EngineState

end Mlxforge
