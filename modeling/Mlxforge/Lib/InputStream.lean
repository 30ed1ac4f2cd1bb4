import Mlxforge.Lib.ByteReader

/-!
Seekable input streams whose reads are not checked. A read that comes up short fails the stream, stores the bytes it
found over the front of its destination and leaves the rest of it as it was. A failed stream reads nothing more and
does not move.
-/

namespace Mlxforge

structure InputStream where
  bytes : Bytes
  pos : Nat := 0
  failed : Bool := false
  /-- What the program's uninitialised destinations hold. -/
  unset : Nat → UInt8

namespace InputStream

/-- The bytes a read can still find. -/
def rest (s : InputStream) : Bytes := if s.failed then [] else s.bytes.drop s.pos

def got (s : InputStream) (n : Nat) : Bytes := s.rest.take n

def after (s : InputStream) (n : Nat) : InputStream :=
  { s with pos := s.pos + (s.got n).length, failed := s.failed || decide ((s.got n).length < n) }

def seekTo (s : InputStream) (target : Int) : InputStream :=
  if s.failed then s
  else if target < 0 then { s with failed := true }
  else { s with pos := target.toNat }

def seekBy (s : InputStream) (offset : Int) : InputStream := s.seekTo (s.pos + offset)

/-- `-1` once the stream has failed. -/
def tell (s : InputStream) : Int := if s.failed then -1 else s.pos

def skip (s : InputStream) (n : Nat) : InputStream := { s with pos := s.pos + n }

/-- The uninitialised destinations hold zeros. -/
def Zeroed (s : InputStream) : Prop := ∀ i, s.unset i = 0

variable {s : InputStream} {bytes tail : Bytes}

theorem got_length (s : InputStream) (n : Nat) : (s.got n).length = min n s.rest.length := List.length_take

theorem rest_of_good (good : s.failed = false) : s.rest = s.bytes.drop s.pos := by
  rw [rest, good]
  rfl

theorem rest_of_failed (failed : s.failed = true) : s.rest = [] := by
  rw [rest, failed]
  rfl

@[simp] theorem skip_failed (s : InputStream) (n : Nat) : (s.skip n).failed = s.failed := rfl

@[simp] theorem skip_skip (s : InputStream) (n m : Nat) : (s.skip n).skip m = s.skip (n + m) := by
  rw [skip, skip, skip, Nat.add_assoc]

@[simp] theorem skip_zero (s : InputStream) : s.skip 0 = s := rfl

theorem skip_rest (s : InputStream) (n : Nat) : (s.skip n).rest = s.rest.drop n := by
  cases failed : s.failed with
  | true => rw [rest_of_failed failed, rest_of_failed (s := s.skip n) failed, List.drop_nil]
  | false => rw [rest_of_good failed, rest_of_good (s := s.skip n) failed, List.drop_drop, skip]

theorem got_of_found (found : bytes <+: s.rest) : s.got bytes.length = bytes := by
  obtain ⟨tail, whole⟩ := found
  rw [got, ← whole, List.take_left]

theorem after_of_found (found : bytes <+: s.rest) : s.after bytes.length = s.skip bytes.length := by
  rw [after, got_of_found found, skip]
  simp

/-- A short read leaves nothing to be read, as does a whole one that ends the file. -/
theorem after_rest (s : InputStream) (n : Nat) : (s.after n).rest = s.rest.drop n := by
  have size := s.got_length n
  cases failed : s.failed with
  | true =>
    have stays : (s.after n).failed = true := by rw [after, failed]; rfl
    rw [rest_of_failed failed, rest_of_failed stays, List.drop_nil]
  | false =>
    by_cases short : (s.got n).length < n
    · have fails : (s.after n).failed = true := by simp [after, short]
      rw [rest_of_failed fails, List.drop_eq_nil_of_le (by omega)]
    · have stays : (s.after n).failed = false := by simp [after, failed, Nat.not_lt.mp short]
      have moved : (s.got n).length = n := by omega
      rw [rest_of_good stays, rest_of_good failed, List.drop_drop]
      change s.bytes.drop (s.pos + (s.got n).length) = _
      rw [moved]

theorem seekBy_of_good (good : s.failed = false) (n : Nat) : s.seekBy n = s.skip n := by
  have forward : ¬((s.pos : Int) + n < 0) := by omega
  have target : ((s.pos : Int) + n).toNat = s.pos + n := by omega
  rw [seekBy, seekTo, if_neg (by rw [good]; decide), if_neg forward, skip, target]

theorem seekBy_rest (s : InputStream) (n : Nat) : (s.seekBy n).rest = s.rest.drop n := by
  cases failed : s.failed with
  | true =>
    have same : s.seekBy n = s := if_pos failed
    rw [same, rest_of_failed failed, List.drop_nil]
  | false => rw [seekBy_of_good failed, skip_rest]

end InputStream

/-- A computation that reads a stream and can throw. -/
abbrev StreamReader (ε α : Type) := StateT InputStream (Except ε) α

namespace StreamReader

open InputStream

variable {ε α β : Type}

/-- `read` into a buffer that holds `old`. -/
def readInto (old : Bytes) : StreamReader ε Bytes := fun s =>
  .ok (s.got old.length ++ old.drop (s.got old.length).length, s.after old.length)

/-- `read` into an uninitialised destination of `n` bytes. -/
def readFresh (n : Nat) : StreamReader ε Bytes := fun s =>
  let missing := n - (s.got n).length
  .ok (s.got n ++ (List.range missing).map s.unset, { s.after n with unset := fun i => s.unset (i + missing) })

def seekBy (offset : Int) : StreamReader ε Unit := fun s => .ok ((), s.seekBy offset)

def seekTo (target : Int) : StreamReader ε Unit := fun s => .ok ((), s.seekTo target)

def tell : StreamReader ε Int := fun s => .ok (s.tell, s)

def times (p : StreamReader ε α) : Nat → StreamReader ε (List α)
  | 0 => pure []
  | n + 1 => do
    let a ← p
    let as ← times p n
    return a :: as

theorem bind_of_ok {p : StreamReader ε α} {q : α → StreamReader ε β} {s s' : InputStream} {a : α}
    (first : p s = .ok (a, s')) : (p >>= q) s = q a s' := by
  change (p s).bind _ = _
  rw [first]
  rfl

theorem bind_of_error {p : StreamReader ε α} {q : α → StreamReader ε β} {s : InputStream} {e : ε}
    (first : p s = .error e) : (p >>= q) s = .error e := by
  change (p s).bind _ = _
  rw [first]
  rfl

/-- `p` reads `a` from `bytes`, wherever they lie and whatever follows. -/
def Reads (p : StreamReader ε α) (bytes : Bytes) (a : α) : Prop :=
  ∀ s : InputStream, s.failed = false → bytes <+: s.rest → p s = .ok (a, s.skip bytes.length)

theorem reads_pure (a : α) : Reads (pure a : StreamReader ε α) [] a := fun _ _ _ => rfl

theorem Reads.bind {p : StreamReader ε α} {q : α → StreamReader ε β} {bytes bytes' : Bytes} {a : α} {b : β}
    (first : Reads p bytes a) (second : Reads (q a) bytes' b) : Reads (p >>= q) (bytes ++ bytes') b := by
  intro s good found
  have next : bytes' <+: (s.skip bytes.length).rest := by
    obtain ⟨tail, whole⟩ := found
    rw [skip_rest, ← whole, List.append_assoc, List.drop_left]
    exact List.prefix_append bytes' tail
  have ran := first s good ((List.prefix_append bytes bytes').trans found)
  rw [bind_of_ok ran, second (s.skip bytes.length) good next, skip_skip, List.length_append]

/-- A first step that finds what it reads is a step over it. -/
theorem Reads.run_bind {p : StreamReader ε α} {q : α → StreamReader ε β} {bytes tail : Bytes} {a : α} {s : InputStream}
    (read : Reads p bytes a) (good : s.failed = false) (found : bytes ++ tail <+: s.rest) :
    (p >>= q) s = q a (s.skip bytes.length) ∧ (s.skip bytes.length).failed = false ∧
      tail <+: (s.skip bytes.length).rest := by
  refine ⟨bind_of_ok (read s good ((List.prefix_append bytes tail).trans found)), good, ?_⟩
  obtain ⟨rest, whole⟩ := found
  rw [skip_rest, ← whole, List.append_assoc, List.drop_left]
  exact List.prefix_append tail rest

theorem Reads.bind_pure {p : StreamReader ε α} {f : α → β} {bytes : Bytes} {a : α} (read : Reads p bytes a) :
    Reads (p >>= fun a => pure (f a)) bytes (f a) := by
  have bound : Reads (p >>= fun a => pure (f a)) (bytes ++ []) (f a) := read.bind (reads_pure (f a))
  rwa [List.append_nil] at bound

theorem reads_fresh (bytes : Bytes) : Reads (ε := ε) (readFresh bytes.length) bytes bytes := by
  intro s good found
  unfold readFresh
  simp only [got_of_found found, after_of_found found, Nat.sub_self, List.range_zero, List.map_nil,
    List.append_nil, Nat.add_zero]
  rfl

theorem reads_into {old bytes : Bytes} (size : old.length = bytes.length) :
    Reads (ε := ε) (readInto old) bytes bytes := by
  intro s good found
  unfold readInto
  rw [size, got_of_found found, after_of_found found, List.drop_eq_nil_of_le (by omega), List.append_nil]

theorem reads_seekBy (bytes : Bytes) : Reads (ε := ε) (seekBy bytes.length) bytes () := by
  intro s good _
  unfold seekBy
  rw [seekBy_of_good good]

theorem reads_times {ι : Type} {p : StreamReader ε α} {encode : ι → Bytes} {value : ι → α} {xs : List ι}
    (each : ∀ x ∈ xs, Reads p (encode x) (value x)) :
    Reads (times p xs.length) (xs.flatMap encode) (xs.map value) := by
  induction xs with
  | nil => exact reads_pure []
  | cons x xs ih =>
    have later := ih fun y member => each y (List.mem_cons_of_mem _ member)
    exact (each x List.mem_cons_self).bind later.bind_pure

/-- `p` returns from `s`, with a result and a stream of which `Q` holds. -/
def Yields (p : StreamReader ε α) (s : InputStream) (Q : α → InputStream → Prop) : Prop :=
  ∃ a s', p s = .ok (a, s') ∧ Q a s'

/-- Where `p` returns from `s`, `Q` holds of what it returns. -/
def Allows (p : StreamReader ε α) (s : InputStream) (Q : α → InputStream → Prop) : Prop :=
  ∀ a s', p s = .ok (a, s') → Q a s'

variable {p : StreamReader ε α} {q : α → StreamReader ε β} {s : InputStream} {P Q : α → InputStream → Prop}
  {R : β → InputStream → Prop}

theorem yields_pure {a : α} (holds : Q a s) : Yields (ε := ε) (pure a) s Q := ⟨a, s, rfl, holds⟩

theorem allows_pure {a : α} (holds : Q a s) : Allows (ε := ε) (pure a) s Q := by
  rintro b s' returned
  obtain ⟨rfl, rfl⟩ := Prod.mk.inj (Except.ok.inj returned)
  exact holds

theorem allows_throw {e : ε} : Allows (throw e : StreamReader ε α) s Q := nofun

theorem Yields.bind (first : Yields p s P) (second : ∀ a s', P a s' → Yields (q a) s' R) : Yields (p >>= q) s R := by
  obtain ⟨a, s', ran, holds⟩ := first
  obtain ⟨b, t, ran', holds'⟩ := second a s' holds
  exact ⟨b, t, by rw [bind_of_ok ran, ran'], holds'⟩

theorem Allows.bind (first : Allows p s P) (second : ∀ a s', P a s' → Allows (q a) s' R) : Allows (p >>= q) s R := by
  intro b t returned
  cases ran : p s with
  | error e =>
    rw [bind_of_error ran] at returned
    cases returned
  | ok done =>
    obtain ⟨a, s'⟩ := done
    rw [bind_of_ok ran] at returned
    exact second a s' (first a s' ran) b t returned

theorem Yields.mono (run : Yields p s P) (weaker : ∀ a s', P a s' → Q a s') : Yields p s Q := by
  obtain ⟨a, s', ran, holds⟩ := run
  exact ⟨a, s', ran, weaker a s' holds⟩

theorem Allows.mono (run : Allows p s P) (weaker : ∀ a s', P a s' → Q a s') : Allows p s Q :=
  fun a s' ran => weaker a s' (run a s' ran)

theorem Yields.allows (run : Yields p s Q) : Allows p s Q := by
  intro b t returned
  obtain ⟨a, s', ran, holds⟩ := run
  rw [ran] at returned
  obtain ⟨rfl, rfl⟩ := Prod.mk.inj (Except.ok.inj returned)
  exact holds

theorem Reads.yields {bytes : Bytes} {a : α} (read : Reads p bytes a) (good : s.failed = false)
    (found : bytes <+: s.rest) : Yields p s fun b s' => b = a ∧ s' = s.skip bytes.length :=
  ⟨a, _, read s good found, rfl, rfl⟩

/-! ### Streams that run out -/

/-- `Q` holds of all that `p` returns from `s`, and where `z` holds it does return. -/
structure Settles (z : Prop) (p : StreamReader ε α) (s : InputStream) (Q : α → InputStream → Prop) : Prop where
  allows : Allows p s Q
  returns : z → ∃ a s', p s = .ok (a, s')

variable {z : Prop}

theorem Yields.settles (run : Yields p s Q) : Settles z p s Q where
  allows := run.allows
  returns := fun _ => by
    obtain ⟨a, s', ran, _⟩ := run
    exact ⟨a, s', ran⟩

theorem Settles.yields (run : Settles z p s Q) (holds : z) : Yields p s Q := by
  obtain ⟨a, s', ran⟩ := run.returns holds
  exact ⟨a, s', ran, run.allows a s' ran⟩

theorem Settles.bind (first : Settles z p s P) (second : ∀ a s', P a s' → Settles z (q a) s' R) :
    Settles z (p >>= q) s R where
  allows := first.allows.bind fun a s' holds => (second a s' holds).allows
  returns := fun holds => by
    obtain ⟨a, s', ran⟩ := first.returns holds
    obtain ⟨b, t, ran'⟩ := (second a s' (first.allows a s' ran)).returns holds
    exact ⟨b, t, by rw [bind_of_ok ran, ran']⟩

theorem Settles.mono (run : Settles z p s P) (weaker : ∀ a s', P a s' → Q a s') : Settles z p s Q where
  allows := run.allows.mono weaker
  returns := run.returns

theorem settles_pure {a : α} (holds : Q a s) : Settles (ε := ε) z (pure a) s Q := (yields_pure holds).settles

theorem settles_throw {e : ε} (never : ¬z) : Settles z (throw e : StreamReader ε α) s Q where
  allows := allows_throw
  returns := fun holds => absurd holds never

/-- What a run does where `z` holds and where it need not. -/
theorem settles_of (plain : Allows p s Q) (fed : z → Yields p s Q) : Settles z p s Q where
  allows := plain
  returns := fun holds => by
    obtain ⟨a, s', ran, _⟩ := fed holds
    exact ⟨a, s', ran⟩

/-- A first step that finds what it reads. -/
theorem Reads.settles_bind {bytes bytes' : Bytes} {a : α} (first : Reads p bytes a) (good : s.failed = false)
    (found : bytes ++ bytes' <+: s.rest)
    (next : bytes' <+: (s.skip bytes.length).rest → Settles z (q a) (s.skip bytes.length) R) :
    Settles z (p >>= q) s R := by
  apply (first.yields good ((List.prefix_append bytes bytes').trans found)).settles.bind
  rintro _ _ ⟨rfl, rfl⟩
  apply next
  obtain ⟨tail, whole⟩ := found
  rw [skip_rest, ← whole, List.append_assoc, List.drop_left]
  exact List.prefix_append bytes' tail

/-- Once failed, a stream stays failed throughout `p`. -/
def Stuck (p : StreamReader ε α) : Prop := ∀ s, s.failed = true → Allows p s fun _ s' => s'.failed = true

theorem stuck_pure (a : α) : Stuck (ε := ε) (pure a) := fun _ failed => allows_pure failed

theorem stuck_throw (e : ε) : Stuck (throw e : StreamReader ε α) := fun _ _ => allows_throw

theorem Stuck.bind (first : Stuck p) (second : ∀ a, Stuck (q a)) : Stuck (p >>= q) :=
  fun s failed => (first s failed).bind fun a s' failed' => second a s' failed'

theorem Stuck.times (each : Stuck p) : ∀ n, Stuck (p.times n)
  | 0 => stuck_pure []
  | n + 1 => each.bind fun _ => (Stuck.times each n).bind fun _ => stuck_pure _

theorem stuck_readInto (old : Bytes) : Stuck (ε := ε) (readInto old) := by
  intro s failed a s' ran
  obtain ⟨rfl, rfl⟩ := Prod.mk.inj (Except.ok.inj ran)
  change (s.failed || _) = true
  rw [failed]
  rfl

theorem stuck_readFresh (n : Nat) : Stuck (ε := ε) (readFresh n) := by
  intro s failed a s' ran
  obtain ⟨rfl, rfl⟩ := Prod.mk.inj (Except.ok.inj ran)
  change (s.failed || _) = true
  rw [failed]
  rfl

theorem stuck_seekBy (offset : Int) : Stuck (ε := ε) (seekBy offset) := by
  intro s failed a s' ran
  obtain ⟨rfl, rfl⟩ := Prod.mk.inj (Except.ok.inj ran)
  have same : s.seekBy offset = s := if_pos failed
  rw [same]
  exact failed

/-- What a read into an uninitialised destination stores. -/
theorem readFresh_yields (n : Nat) (s : InputStream) : Yields (ε := ε) (readFresh n) s fun v s' =>
    s'.rest = s.rest.drop n ∧ (s.Zeroed → s'.Zeroed) ∧ (s.rest.length < n → s'.failed = true) ∧ s.rest.take n <+: v ∧
      v.length = n ∧ (s.Zeroed → v = s.rest.take n ++ List.replicate (n - s.rest.length) 0) := by
  have size := got_length s n
  refine ⟨_, _, rfl, after_rest s n, fun zeros i => zeros _, ?_, List.prefix_append _ _, ?_, ?_⟩
  · intro short
    have fewer : (s.got n).length < n := by omega
    change (s.failed || decide _) = true
    rw [decide_eq_true fewer, Bool.or_true]
  · rw [List.length_append, List.length_map, List.length_range]
    omega
  · intro zeros
    have missing : n - (s.got n).length = n - s.rest.length := by omega
    rw [missing]
    congr 1
    apply List.eq_replicate_iff.mpr
    constructor
    · rw [List.length_map, List.length_range]
    · intro b member
      obtain ⟨i, _, rfl⟩ := List.mem_map.mp member
      exact zeros i

/-- What a read into a buffer of zeros stores. -/
theorem readInto_zeros_yields (n : Nat) (s : InputStream) : Yields (ε := ε) (readInto (List.replicate n 0)) s fun v s' =>
    s'.rest = s.rest.drop n ∧ s'.unset = s.unset ∧ v = s.rest.take n ++ List.replicate (n - s.rest.length) 0 := by
  refine ⟨_, _, rfl, ?_, rfl, ?_⟩
  · rw [List.length_replicate]
    exact after_rest s n
  · have size := got_length s n
    rw [List.length_replicate, List.drop_replicate]
    congr 2
    omega

/-- Nothing is left to be read, and where `z` holds the uninitialised destinations hold zeros. -/
structure Drained (z : Prop) (s : InputStream) : Prop where
  rest : s.rest = []
  zeros : z → s.Zeroed

theorem Drained.skip {n : Nat} (zeros : z → s.Zeroed) (short : s.rest.length ≤ n) : Drained z (s.seekBy n) where
  rest := by
    rw [seekBy_rest]
    exact List.drop_eq_nil_of_le short
  zeros := by
    intro holds
    have same : (s.seekBy n).unset = s.unset := by
      unfold InputStream.seekBy InputStream.seekTo
      split
      · rfl
      · split <;> rfl
    rw [Zeroed, same]
    exact zeros holds

theorem times_drained_all {p : StreamReader ε α} {P : α → Prop}
    (each : ∀ s, Drained z s → Settles z p s fun a s' => Drained z s' ∧ P a) :
    ∀ (n : Nat) {s : InputStream}, Drained z s → Settles z (times p n) s fun as s' => Drained z s' ∧ ∀ a ∈ as, P a
  | 0, _, dead => settles_pure ⟨dead, nofun⟩
  | n + 1, _, dead => (each _ dead).bind fun _ _ ⟨dead', holds⟩ =>
      (times_drained_all each n dead').bind fun _ _ ⟨dead'', all⟩ =>
        settles_pure ⟨dead'', List.forall_mem_cons.mpr ⟨holds, all⟩⟩

theorem times_drained {p : StreamReader ε α} (each : ∀ s, Drained z s → Settles z p s fun _ s' => Drained z s') (n : Nat)
    {s : InputStream} (dead : Drained z s) : Settles z (times p n) s fun _ s' => Drained z s' := by
  have run := times_drained_all (P := fun _ => True) (fun s dead => (each s dead).mono fun _ _ dead' => ⟨dead', trivial⟩) n dead
  exact run.mono fun _ _ facts => facts.1

/-- What lies in front of the end of a file either ends inside the first piece or has it whole. -/
theorem prefix_append_cases {α : Type} {l a b : List α} (front : l <+: a ++ b) :
    l <+: a ∧ l.length < a.length ∨ a <+: l ∧ l.drop a.length <+: b := by
  rcases List.prefix_or_prefix_of_prefix front (List.prefix_append a b) with inside | whole
  · by_cases short : l.length < a.length
    · exact .inl ⟨inside, short⟩
    · obtain rfl : l = a := inside.eq_of_length (Nat.le_antisymm inside.length_le (Nat.not_lt.mp short))
      exact .inr ⟨List.prefix_rfl, by simp⟩
  · obtain ⟨tail, rfl⟩ := whole
    rw [List.drop_left]
    exact .inr ⟨List.prefix_append a tail, (List.prefix_append_right_inj a).mp front⟩

theorem good_of_rest (some : s.rest ≠ []) : s.failed = false := by
  cases failed : s.failed with
  | true => exact absurd (rest_of_failed failed) some
  | false => rfl

/-- A loop over records that are cut short: the whole ones are read, one is cut, and the others find nothing. -/
theorem times_cut {ι : Type} {p : StreamReader ε α} {encode : ι → Bytes} {value : ι → α} {xs : List ι}
    (whole : ∀ x ∈ xs, Reads p (encode x) (value x)) (some : ∀ x ∈ xs, encode x ≠ [])
    (cut : ∀ x ∈ xs, ∀ s : InputStream, (z → s.Zeroed) → s.rest <+: encode x → s.rest.length < (encode x).length →
      Settles z p s fun _ s' => Drained z s')
    {s : InputStream} (zeros : z → s.Zeroed) (part : s.rest <+: xs.flatMap encode)
    (short : s.rest.length < (xs.flatMap encode).length) :
    Settles z (times p xs.length) s fun _ s' => Drained z s' := by
  induction xs generalizing s with
  | nil => exact absurd short (Nat.not_lt_zero _)
  | cons x xs ih =>
    have later := @ih (fun y member => whole y (List.mem_cons_of_mem _ member))
      (fun y member => some y (List.mem_cons_of_mem _ member)) fun y member => cut y (List.mem_cons_of_mem _ member)
    rw [List.flatMap_cons] at part short
    rw [List.length_cons, times]
    rcases prefix_append_cases part with ⟨inside, shorter⟩ | ⟨found, rest⟩
    · apply (cut x List.mem_cons_self s zeros inside shorter).bind
      intro _ s' dead
      have others : Settles z (times p xs.length) s' fun _ s' => Drained z s' := by
        cases xs with
        | nil => exact settles_pure (a := []) dead
        | cons y ys =>
          apply later dead.zeros
          · rw [dead.rest]
            exact List.nil_prefix
          · have first := List.length_pos_iff.mpr (some y (List.mem_cons_of_mem _ List.mem_cons_self))
            rw [dead.rest, List.flatMap_cons, List.length_append, List.length_nil]
            omega
      exact others.bind fun _ _ dead' => settles_pure dead'
    · have good : s.failed = false := by
        apply good_of_rest
        intro empty
        rw [empty] at found
        exact some x List.mem_cons_self (List.prefix_nil.mp found)
      apply ((whole x List.mem_cons_self).yields good found).settles.bind
      rintro _ _ ⟨rfl, rfl⟩
      have zeros' : z → (s.skip (encode x).length).Zeroed := zeros
      rw [← skip_rest] at rest
      have fewer : (s.skip (encode x).length).rest.length < (xs.flatMap encode).length := by
        rw [skip_rest, List.length_drop]
        rw [List.length_append] at short
        have := List.length_pos_iff.mpr (some x List.mem_cons_self)
        have := found.length_le
        omega
      exact (later zeros' rest fewer).bind fun _ _ dead' => settles_pure dead'

/-! ### Variables that hold the missing bytes -/

/-- A supply of these bytes, then zeros. -/
def supply (bytes : Bytes) : Nat → UInt8 := fun i => bytes.getD i 0

theorem supply_drop (bytes more : Bytes) : (fun i => supply (bytes ++ more) (i + bytes.length)) = supply more := by
  funext i
  unfold supply
  rw [List.getD_eq_getElem?_getD, List.getElem?_append_right (by omega), List.getD_eq_getElem?_getD]
  congr 2
  omega

theorem map_supply (bytes more : Bytes) : (List.range bytes.length).map (supply (bytes ++ more)) = bytes := by
  apply List.ext_getElem
  · rw [List.length_map, List.length_range]
  · intro i _ fits
    rw [List.getElem_map, List.getElem_range, supply, List.getD_eq_getElem?_getD, List.getElem?_append_left fits,
      List.getElem?_eq_getElem fits, Option.getD_some]

/-- `p` reads `a` from `bytes` though they end early, if the variables happen to hold the rest of them. -/
def Guesses (p : StreamReader ε α) (bytes : Bytes) (a : α) : Prop :=
  ∀ (s : InputStream) (missing more : Bytes), s.rest ++ missing = bytes → s.unset = supply (missing ++ more) →
    ∃ s', p s = .ok (a, s') ∧ s'.rest = [] ∧ s'.unset = supply more

theorem guesses_pure (a : α) : Guesses (ε := ε) (pure a) [] a := by
  intro s missing more whole held
  obtain ⟨rest, rfl⟩ := List.append_eq_nil_iff.mp whole
  exact ⟨s, rfl, rest, held⟩

theorem Guesses.bind {bytes bytes' : Bytes} {a : α} {b : β} (first : Guesses p bytes a) (reads : Reads p bytes a)
    (second : Guesses (q a) bytes' b) : Guesses (p >>= q) (bytes ++ bytes') b := by
  intro s missing more whole held
  rcases List.append_eq_append_iff.mp whole with ⟨missing', here, rfl⟩ | ⟨rest', here, rfl⟩
  · rw [List.append_assoc] at held
    obtain ⟨s', ran, rest, held'⟩ := first s missing' (bytes' ++ more) here.symm held
    obtain ⟨t, ran', done⟩ := second s' bytes' more (by rw [rest, List.nil_append]) held'
    exact ⟨t, by rw [bind_of_ok ran, ran'], done⟩
  · by_cases empty : s.rest = []
    · obtain ⟨rfl, rfl⟩ := List.append_eq_nil_iff.mp (here.symm.trans empty)
      obtain ⟨s', ran, rest, held'⟩ := first s [] (missing ++ more) (by rw [empty]; rfl) held
      obtain ⟨t, ran', done⟩ := second s' missing more (by rw [rest]) held'
      exact ⟨t, by rw [bind_of_ok ran, ran'], done⟩
    · have found : bytes <+: s.rest := ⟨rest', here.symm⟩
      have ran := reads s (good_of_rest empty) found
      have rest : (s.skip bytes.length).rest ++ missing = rest' ++ missing := by
        rw [skip_rest, here, List.drop_left]
      obtain ⟨t, ran', done⟩ := second (s.skip bytes.length) missing more rest held
      exact ⟨t, by rw [bind_of_ok ran, ran'], done⟩

theorem Guesses.bind_pure {f : α → β} {bytes : Bytes} {a : α} (guess : Guesses p bytes a) (reads : Reads p bytes a) :
    Guesses (p >>= fun a => pure (f a)) bytes (f a) := by
  have bound : Guesses (p >>= fun a => pure (f a)) (bytes ++ []) (f a) := guess.bind reads (guesses_pure (f a))
  rwa [List.append_nil] at bound

theorem guesses_fresh (bytes : Bytes) : Guesses (ε := ε) (readFresh bytes.length) bytes bytes := by
  intro s missing more whole held
  have length : s.rest.length + missing.length = bytes.length := by rw [← whole, List.length_append]
  have got : s.got bytes.length = s.rest := List.take_of_length_le (by omega)
  have short : bytes.length - s.rest.length = missing.length := by omega
  have value : s.got bytes.length ++ (List.range (bytes.length - (s.got bytes.length).length)).map s.unset = bytes := by
    rw [got, short, held, map_supply, whole]
  refine ⟨{ s.after bytes.length with unset := fun i => s.unset (i + (bytes.length - (s.got bytes.length).length)) },
    ?_, ?_, ?_⟩
  · unfold readFresh
    simp only [value]
  · change (s.after bytes.length).rest = []
    rw [after_rest, List.drop_eq_nil_of_le (by omega)]
  · change (fun i => s.unset (i + (bytes.length - (s.got bytes.length).length))) = supply more
    rw [got, short, held, supply_drop]

theorem guesses_times {ι : Type} {encode : ι → Bytes} {value : ι → α} {xs : List ι}
    (reads : ∀ x ∈ xs, Reads p (encode x) (value x)) (each : ∀ x ∈ xs, Guesses p (encode x) (value x)) :
    Guesses (times p xs.length) (xs.flatMap encode) (xs.map value) := by
  induction xs with
  | nil => exact guesses_pure []
  | cons x xs ih =>
    have reads' : ∀ y ∈ xs, Reads p (encode y) (value y) := fun y member => reads y (List.mem_cons_of_mem _ member)
    have later := ih reads' fun y member => each y (List.mem_cons_of_mem _ member)
    exact (each x List.mem_cons_self).bind (reads x List.mem_cons_self) (later.bind_pure (reads_times reads'))

end StreamReader

end Mlxforge
