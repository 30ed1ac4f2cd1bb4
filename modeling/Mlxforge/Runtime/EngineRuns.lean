import Mlxforge.Runtime.Turns

/-!
Whole runs of the engine: where every request is in every reachable state.
-/

namespace Mlxforge

open Transition (Reachable Free)
open Worker (Tracked Moves RowLaw Untouched Forgets live)

variable {V L K G I : Type}

/-- Where every request is, and what is known of it there: still waiting, live, or closed. -/
structure Placed (P : Output G → Row K → Prop) (Q : Nat → Output G → Prop) (waiting hand accepted : List Nat) (next : Nat)
    (w : Worker V K G) : Prop where
  tracked : Tracked P hand w
  once : ∀ r, (waiting ++ live hand w).count r ≤ 1
  known : ∀ r ∈ waiting ++ live hand w, r ∈ accepted
  numbered : ∀ r ∈ accepted, r < next
  untaken : ∀ r, r ∈ waiting ∨ r ∉ accepted → Untouched (w.out r)
  settled : ∀ r ∈ accepted, r ∉ waiting → r ∉ live hand w →
    (w.out r).closes ≠ [] ∧ (¬w.Botched r → Q r (w.out r))

namespace Placed

variable {P : Output G → Row K → Prop} {Q : Nat → Output G → Prop} {waiting waiting' hand hand' accepted : List Nat}
  {next : Nat} {w w' : Worker V K G}

theorem apart (placed : Placed P Q waiting hand accepted next w) {r : Nat} (out : r ∈ waiting ∨ r ∉ accepted) :
    r ∉ live hand w := by
  intro member
  rcases out with queued | rejected
  · have once := placed.once r
    have here := List.count_pos_iff.mpr queued
    have there := List.count_pos_iff.mpr member
    rw [List.count_append] at once
    omega
  · exact rejected (placed.known r (List.mem_append_right _ member))

/-- A step of the worker on what it holds. -/
theorem moved (placed : Placed P Q waiting hand accepted next w) (tracked : Tracked P hand' w')
    (moves : Moves Q hand hand' w w') : Placed P Q waiting hand' accepted next w' where
  tracked := tracked
  once := by
    intro r
    have once := placed.once r
    have within := moves.within r
    simp only [List.count_append] at once ⊢
    omega
  known := by
    intro r member
    refine placed.known r ?_
    rw [List.mem_append] at member ⊢
    exact member.imp_right moves.mem
  numbered := placed.numbered
  untaken := by
    intro r out
    rw [moves.settled r (placed.apart out)]
    exact placed.untaken r out
  settled := by
    intro r known taken gone
    by_cases before : r ∈ live hand w
    · exact moves.dropped r before gone
    · rw [moves.settled r before]
      obtain ⟨closed, done⟩ := placed.settled r known taken before
      exact ⟨closed, fun whole => done fun botched => whole (moves.errors _ botched)⟩

/-- Requests taken from the queue into the hand. -/
theorem take (placed : Placed P Q waiting hand accepted next w) {taken : List Nat} (queue : taken ++ waiting' = waiting) :
    Placed P Q waiting' (hand ++ taken) accepted next w := by
  subst queue
  have count : ∀ r, (waiting' ++ live (hand ++ taken) w).count r = (taken ++ waiting' ++ live hand w).count r := by
    intro r
    simp only [live, List.count_append]
    omega
  refine ⟨⟨fun r => ?_, fun r member => ?_, placed.tracked.rows, placed.tracked.cache, placed.tracked.units⟩,
    fun r => (count r).trans_le (placed.once r), fun r member => ?_, placed.numbered, fun r out => ?_, ?_⟩
  · have once := placed.once r
    rw [← count, List.count_append] at once
    omega
  · have member : r ∈ taken ∨ r ∈ hand ++ w.pendingReqs := by
      simp only [List.mem_append] at member ⊢
      tauto
    exact member.elim (fun h => placed.untaken r (.inl (List.mem_append_left _ h))) (placed.tracked.fresh r)
  · exact placed.known r (List.count_pos_iff.mp (count r ▸ List.count_pos_iff.mpr member))
  · exact placed.untaken r (out.imp_left (List.mem_append_right _))
  · intro r known absent gone
    have gone : r ∉ live hand w ∧ r ∉ taken := by
      simp only [live, List.mem_append, not_or] at gone ⊢
      tauto
    refine placed.settled r known (fun queued => ?_) gone.1
    exact (List.mem_append.mp queued).elim gone.2 absent

/-- A request the scheduler accepts is put into the queue; one it rejects is never heard of again. -/
theorem submit (placed : Placed P Q waiting hand accepted next w) (ok : Bool) :
    Placed P Q (if ok then waiting ++ [next] else waiting) hand (if ok then accepted ++ [next] else accepted) (next + 1)
      w := by
  have newcomer : next ∉ accepted := fun member => Nat.lt_irrefl _ (placed.numbered _ member)
  have numbered : ∀ r ∈ accepted, r < next + 1 := fun r member => Nat.lt_succ_of_lt (placed.numbered r member)
  cases ok with
  | false => exact ⟨placed.tracked, placed.once, placed.known, numbered, placed.untaken, placed.settled⟩
  | true =>
    rw [if_pos rfl, if_pos rfl]
    have unknown : next ∉ waiting ++ live hand w := fun member => newcomer (placed.known _ member)
    have moved : ∀ r, (waiting ++ [next] ++ live hand w).count r = (waiting ++ live hand w).count r + [next].count r := by
      intro r
      simp only [List.count_append]
      omega
    refine ⟨placed.tracked, fun r => ?_, fun r member => ?_, fun r member => ?_, fun r out => ?_, fun r known => ?_⟩
    · rw [moved]
      have once := placed.once r
      by_cases same : r = next
      · rw [same, List.count_eq_zero.mpr unknown]
        simp
      · rw [List.count_eq_zero.mpr (show r ∉ [next] by simpa using same)]
        exact once
    · simp only [List.mem_append, List.mem_singleton] at member ⊢
      rcases member with (queued | rfl) | held
      · exact .inl (placed.known r (List.mem_append_left _ queued))
      · exact .inr rfl
      · exact .inl (placed.known r (List.mem_append_right _ held))
    · rcases List.mem_append.mp member with member | member
      · exact numbered r member
      · rw [List.mem_singleton.mp member]
        exact Nat.lt_succ_self _
    · refine placed.untaken r ?_
      by_cases same : r = next
      · exact .inr (same ▸ newcomer)
      · simpa [same] using out
    · intro absent gone
      have other : r ≠ next := fun same => absent (by simp [same])
      exact placed.settled r (by simpa [other] using known) (fun queued => absent (List.mem_append_left _ queued)) gone

end Placed

namespace EngineState

/-- The requests taken from the scheduler that are not queued or registered yet. -/
def hand (s : EngineState V K G) : List Nat :=
  match s.location with
  | .tookFirst r => [r]
  | .admitting incoming => incoming
  | _ => []

def Inv (P : Output G → Row K → Prop) (Q : Nat → Output G → Prop) (s : EngineState V K G) : Prop :=
  Placed P Q s.sched.waiting s.hand s.accepted s.next s.worker

/-- Wherever the worker evicts next, rows that lose their history can do without it. -/
def Careful (P : Output G → Row K → Prop) (s : EngineState V K G) : EngineAction → Prop
  | .worker _ => s.location = .evicting ∨ s.location = .evictingDecoded → Forgets P s.worker
  | _ => True

variable [Slot V] {env : WorkerEnv V L K G I} {P : Output G → Row K → Prop} {Q : Nat → Output G → Prop}
  {s s' : EngineState V K G} {flags : List Nat} {a : EngineAction}

/-- What a step of the worker does: take requests from the queue, or work on what it holds. -/
structure Worked (P : Output G → Row K → Prop) (Q : Nat → Output G → Prop) (s s' : EngineState V K G) : Prop where
  accepted : s'.accepted = s.accepted
  next : s'.next = s.next
  what : (∃ taken, taken ++ s'.sched.waiting = s.sched.waiting ∧ s'.hand = s.hand ++ taken ∧ s'.worker = s.worker) ∨
    (s'.sched.waiting = s.sched.waiting ∧ Tracked P s'.hand s'.worker ∧ Moves Q s.hand s'.hand s.worker s'.worker)

theorem workerStep_worked (law : RowLaw env P Q) (inv : Inv P Q s) (careful : s.Careful P (.worker flags))
    (stepped : s.workerStep env flags = some s') : Worked P Q s s' := by
  have tracked : Tracked P s.hand s.worker := inv.tracked
  unfold EngineState.workerStep at stepped
  cases location : s.location with
  | top =>
    have empty : s.hand = [] := by rw [hand, location]
    rw [location] at stepped
    dsimp only at stepped
    split at stepped
    · obtain ⟨⟨r, sched⟩, next, stepped⟩ := Option.bind_eq_some_iff.mp stepped
      obtain ⟨rfl, rfl, -⟩ | ⟨r, rfl, waiting⟩ := Scheduler.nextWaiting_spec next
      · obtain rfl := Option.some.inj stepped
        exact ⟨rfl, rfl, .inl ⟨[], rfl, by rw [empty]; rfl, rfl⟩⟩
      · obtain rfl := Option.some.inj stepped
        exact ⟨rfl, rfl, .inl ⟨[r], waiting.symm, by rw [empty]; rfl, rfl⟩⟩
    split at stepped
    · obtain rfl := Option.some.inj stepped
      exact ⟨rfl, rfl, .inl ⟨_, Scheduler.takeWaiting_spec s.sched prefillBatchSize, by rw [empty]; rfl, rfl⟩⟩
    · obtain rfl := Option.some.inj stepped
      exact ⟨rfl, rfl, .inl ⟨[], rfl, by rw [empty]; rfl, rfl⟩⟩
  | tookFirst r =>
    have first : s.hand = [r] := by rw [hand, location]
    rw [location] at stepped
    obtain rfl := Option.some.inj stepped
    exact ⟨rfl, rfl, .inl ⟨_, Scheduler.takeWaiting_spec s.sched (prefillBatchSize - 1), by rw [first]; rfl, rfl⟩⟩
  | admitting incoming =>
    have group : s.hand = incoming := by rw [hand, location]
    rw [location] at stepped
    obtain ⟨w', ran, stepped⟩ := Option.bind_eq_some_iff.mp stepped
    obtain rfl := Option.some.inj stepped
    rw [group] at tracked
    obtain ⟨tracked', moves⟩ := Worker.admitIncoming_tracked law tracked (toOption_some ran)
    exact ⟨rfl, rfl, .inr ⟨rfl, tracked', group ▸ moves⟩⟩
  | advancing =>
    have empty : s.hand = [] := by rw [hand, location]
    rw [location] at stepped
    obtain ⟨w', ran, stepped⟩ := Option.bind_eq_some_iff.mp stepped
    obtain rfl := Option.some.inj stepped
    rw [empty] at tracked
    obtain ⟨tracked', moves⟩ := Worker.advanceChunkedPrefill_tracked law tracked (toOption_some ran)
    exact ⟨rfl, rfl, .inr ⟨rfl, tracked', empty ▸ moves⟩⟩
  | evicting =>
    have empty : s.hand = [] := by rw [hand, location]
    rw [location] at stepped
    obtain rfl := Option.some.inj stepped
    rw [empty] at tracked
    obtain ⟨tracked', moves⟩ := Worker.evictFinished_tracked law tracked (careful (.inl location))
    cases (s.worker.evictFinished env).reqs.isEmpty with
    | true => exact ⟨rfl, rfl, .inr ⟨rfl, tracked', empty ▸ moves⟩⟩
    | false => exact ⟨rfl, rfl, .inr ⟨rfl, tracked', empty ▸ moves⟩⟩
  | decoding =>
    have empty : s.hand = [] := by rw [hand, location]
    rw [location] at stepped
    obtain ⟨w', ran, stepped⟩ := Option.bind_eq_some_iff.mp stepped
    obtain rfl := Option.some.inj stepped
    rw [empty] at tracked
    obtain ⟨tracked', moves⟩ := Worker.decodeStep_tracked law tracked (toOption_some ran)
    exact ⟨rfl, rfl, .inr ⟨rfl, tracked', empty ▸ moves⟩⟩
  | evictingDecoded =>
    have empty : s.hand = [] := by rw [hand, location]
    rw [location] at stepped
    obtain rfl := Option.some.inj stepped
    rw [empty] at tracked
    obtain ⟨tracked', moves⟩ := Worker.evictFinished_tracked law tracked (careful (.inr location))
    exact ⟨rfl, rfl, .inr ⟨rfl, tracked', empty ▸ moves⟩⟩
  | exited =>
    rw [location] at stepped
    cases stepped

omit [Slot V] in
theorem Inv.worked (inv : Inv P Q s) (worked : Worked P Q s s') : Inv P Q s' := by
  have placed : Placed P Q s.sched.waiting s.hand s.accepted s.next s.worker := inv
  unfold Inv
  rw [worked.accepted, worked.next]
  obtain ⟨taken, queue, held, same⟩ | ⟨waiting, tracked, moves⟩ := worked.what
  · rw [held, same]
    exact placed.take queue
  · rw [waiting]
    exact placed.moved tracked moves

theorem Inv.step (law : RowLaw env P Q) (inv : Inv P Q s) (careful : s.Careful P a) (stepped : s.step env a = some s') :
    Inv P Q s' := by
  cases a with
  | submit =>
    simp only [EngineState.step, Option.some.injEq] at stepped
    subst stepped
    have placed := Placed.submit inv (s.sched.submit s.next).1
    unfold Inv
    rcases Scheduler.submit_spec s.sched s.next with ⟨ok, waiting⟩ | ⟨full, waiting⟩
    · rw [ok] at placed
      dsimp only
      rw [waiting, ok]
      exact placed
    · rw [full] at placed
      dsimp only
      rw [waiting, full]
      exact placed
  | cancel r =>
    obtain rfl := Option.some.inj stepped
    exact inv
  | stop =>
    obtain rfl := Option.some.inj stepped
    exact inv
  | worker flags =>
    unfold EngineState.step at stepped
    dsimp only at stepped
    split at stepped
    · exact inv.worked (workerStep_worked law inv careful stepped)
    · cases stepped

omit [Slot V] in
theorem start_inv (env : WorkerEnv V L K G I) (maxWaiting : Int) : Inv P Q (start (K := K) (G := G) env maxWaiting) where
  tracked := ⟨by simp [live, start, hand, Worker.pendingReqs], by simp [start, hand, Worker.pendingReqs],
    ⟨[], ⟨rfl, rfl, rfl, rfl, rfl, rfl⟩, nofun⟩, fun _ => rfl, nofun⟩
  once := by simp [live, start, hand, Worker.pendingReqs]
  known := by simp [live, start, hand, Worker.pendingReqs]
  numbered := nofun
  untaken := fun _ _ => ⟨rfl, rfl, rfl⟩
  settled := nofun

/-- The invariant holds in every state of every run that is careful with histories. -/
theorem inv_of_reachable (law : RowLaw env P Q) {ok : EngineState V K G → EngineAction → Prop}
    (careful : ∀ s a, ok s a → s.Careful P a) {maxWaiting : Int}
    (reached : Reachable (step env) ok (start env maxWaiting) s) : Inv P Q s :=
  reached.invariant (start_inv env maxWaiting) fun inv allowed stepped => inv.step law (careful _ _ allowed) stepped

omit [Slot V] in
/-- The law that asks for nothing, for which every eviction is careful. -/
theorem anyLaw : RowLaw env (fun _ _ => True) (fun _ _ => True) :=
  ⟨fun _ _ => trivial, fun _ _ => trivial, fun _ _ _ => trivial, fun _ _ _ => trivial⟩

omit [Slot V] in
theorem any_careful (s : EngineState V K G) (a : EngineAction) : s.Careful (fun _ _ => True) a := by
  cases a with
  | worker flags => exact fun _ => .inl fun _ => trivial
  | _ => trivial

/-- A request is done: taken from the queue, and nowhere in the worker any more. -/
def Done (s : EngineState V K G) (r : Nat) : Prop :=
  r ∈ s.accepted ∧ r ∉ s.sched.waiting ∧ r ∉ live s.hand s.worker

/-- What is done stays done, and is not touched again. -/
theorem Done.step {r : Nat} (law : RowLaw env P Q) (inv : Inv P Q s) (careful : s.Careful P a)
    (stepped : s.step env a = some s') (done : s.Done r) : s'.Done r ∧ s'.worker.out r = s.worker.out r := by
  obtain ⟨accepted, absent, gone⟩ := done
  cases a with
  | submit =>
    simp only [EngineState.step, Option.some.injEq] at stepped
    subst stepped
    have other : r ≠ s.next := (inv.numbered r accepted).ne
    refine ⟨⟨?_, ?_, gone⟩, rfl⟩
    · dsimp only
      split
      · exact List.mem_append_left _ accepted
      · exact accepted
    · dsimp only
      rcases Scheduler.submit_spec s.sched s.next with ⟨-, waiting⟩ | ⟨-, waiting⟩
      · rw [waiting]
        simpa [other] using absent
      · rwa [waiting]
  | cancel r' =>
    obtain rfl := Option.some.inj stepped
    exact ⟨⟨accepted, absent, gone⟩, rfl⟩
  | stop =>
    obtain rfl := Option.some.inj stepped
    exact ⟨⟨accepted, absent, gone⟩, rfl⟩
  | worker flags =>
    unfold EngineState.step at stepped
    dsimp only at stepped
    split at stepped
    · have worked := workerStep_worked law inv careful stepped
      obtain ⟨taken, queue, held, same⟩ | ⟨waiting, -, moves⟩ := worked.what
      · rw [← queue, List.mem_append, not_or] at absent
        refine ⟨⟨worked.accepted ▸ accepted, absent.2, ?_⟩, by rw [same]⟩
        rw [held, same]
        simp only [live, List.mem_append, not_or] at gone ⊢
        tauto
      · exact ⟨⟨worked.accepted ▸ accepted, waiting ▸ absent, mt moves.mem gone⟩, moves.settled r gone⟩
    · cases stepped

theorem Done.run {r : Nat} (law : RowLaw env P Q) {ok : EngineState V K G → EngineAction → Prop}
    (careful : ∀ s a, ok s a → s.Careful P a) (inv : Inv P Q s) (done : s.Done r)
    (reached : Reachable (EngineState.step env) ok s s') : s'.worker.out r = s.worker.out r := by
  have all : Inv P Q s' ∧ s'.Done r ∧ s'.worker.out r = s.worker.out r := by
    induction reached with
    | refl => exact ⟨inv, done, rfl⟩
    | tail _ allowed stepped ih =>
      obtain ⟨inv, done, same⟩ := ih
      obtain ⟨done', out⟩ := done.step law inv (careful _ _ allowed) stepped
      exact ⟨inv.step law (careful _ _ allowed) stepped, done', out.trans same⟩
  exact all.2.2

end EngineState

end Mlxforge
