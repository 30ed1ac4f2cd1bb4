import Mlxforge.Cache.RowAppend
import Mlxforge.Cache.RowMerge
import Mlxforge.Cache.RowSeed

/-!
Every finite sequence of cache operations. A program is a tree because `merge` joins two
caches that were each built by operations of their own; `rows` says what each of its rows
was given, and `exec` runs the operations.
-/

namespace Mlxforge

variable {V : Type}

namespace BatchKVCache

/-- What the caches of one program share. -/
structure Shape where
  nLayers : Nat
  blockSize : Nat
  qcfg : KVQuantConfig

inductive Program (V : Type) where
  | new (kStep : Nat) (leftPadding : List Nat)
  | fromPrefix (kStep : Nat) (blocks : List (KVBlock V)) (len : Int)
  | fromSingleSequence (kStep : Nat) (kvPerLayer : List (KvArray V × KvArray V)) (seq : Nat)
      (decodeOffset : Int)
  | forward (p : Program V) (n : Nat) (chunk : List (KvArray V × KvArray V))
  | filter (p : Program V) (keep : List Nat)
  | merge (p q : Program V)
  | padDummies (p : Program V) (extra : Nat)

namespace Program

variable [Slot V] (s : Shape)

def exec : Program V → Except Fault (BatchKVCache V)
  | .new kStep leftPadding => .ok (.new kStep s.nLayers (leftPadding.map Nat.cast) s.qcfg)
  | .fromPrefix kStep blocks len => BatchKVCache.fromPrefix kStep s.nLayers blocks len s.qcfg
  | .fromSingleSequence kStep kvPerLayer seq decodeOffset =>
    .ok (.fromSingleSequence kStep kvPerLayer seq decodeOffset)
  | .forward p n chunk => do
    let c ← p.exec
    c.forward n chunk
  | .filter p keep => do
    let c ← p.exec
    return c.filter keep
  | .merge p q => do
    let c ← p.exec
    let other ← q.exec
    c.merge other
  | .padDummies p extra => do
    let c ← p.exec
    c.padDummies extra

/-- Per row and layer, what the program wrote for it, oldest first. -/
def rows : Program V → List (RowHistory V)
  | .new _ leftPadding => leftPadding.map fun p => ⟨p, -p, List.replicate s.nLayers []⟩
  | .fromPrefix _ blocks len => [⟨0, len.toNat, (List.range s.nLayers).map fun l =>
      (blocks.flatMap fun b => b.entries s.blockSize l).take len.toNat⟩]
  | .fromSingleSequence _ kvPerLayer seq decodeOffset =>
    [⟨0, decodeOffset, kvPerLayer.map fun kv => window (chunkEntry {} kv 0) 0 seq⟩]
  | .forward p n chunk => p.rows.mapIdx fun b r =>
      r.append n (chunk.map fun kv => window (chunkEntry s.qcfg kv b) 0 n)
  | .filter p keep => keep.map fun i => p.rows.getD i (.dummy s.nLayers)
  | .merge p q => p.rows ++ q.rows
  | .padDummies p extra => p.rows ++ List.replicate extra (.dummy s.nLayers)

omit [Slot V] in
/-- The program's cache has been written at least once. -/
def Written : Program V → Prop
  | .new _ _ => False
  | .fromPrefix _ _ len => 0 < len
  | .fromSingleSequence _ _ _ _ => True
  | .forward _ _ _ => True
  | .filter p _ => p.Written
  | .merge _ _ => True
  | .padDummies p _ => p.Written

/-- The conditions under which the engine calls each operation. -/
def Valid : Program V → Prop
  | .new kStep _ => 0 < kStep
  | .fromPrefix kStep blocks len => 0 < kStep ∧ 0 < s.blockSize ∧
      len ≤ (blocks.length * s.blockSize : Nat) ∧
      ∀ b ∈ blocks, b.Shaped s.blockSize s.nLayers s.qcfg.components
  | .fromSingleSequence kStep kvPerLayer seq _ => 0 < kStep ∧ s.qcfg = {} ∧
      kvPerLayer.length = s.nLayers ∧
      ∀ kv ∈ kvPerLayer, kv.1.batch = 1 ∧ kv.2.batch = 1 ∧ seq ≤ kv.1.cap ∧ seq ≤ kv.2.cap
  | .forward p n chunk => p.Valid ∧ chunk.length = s.nLayers ∧
      ∀ kv ∈ chunk, ChunkShape (p.rows s).length n kv
  | .filter p keep => p.Valid ∧ keep ≠ [] ∧
      ∀ i ∈ keep, ∃ r, (p.rows s)[i]? = some r ∧ r.pad = 0
  | .merge p q => p.Valid ∧ q.Valid ∧ p.Written ∧ q.Written
  | .padDummies p _ => p.Valid

/-- `c` is the cache of program `p`. -/
structure Shows (p : Program V) (c : BatchKVCache V) : Prop where
  wf : c.Wf
  rows : c.rows = p.rows s
  layers : c.layers.length = s.nLayers
  qcfg : c.qcfg = s.qcfg
  stocked : p.Written → c.Stocked

variable {s} {p q : Program V} {c : BatchKVCache V}

theorem Shows.batch (h : Shows s p c) : (p.rows s).length = c.batch := by
  rw [← h.rows, rows_length]

theorem Shows.row (h : Shows s p c) {i : Nat} {r : RowHistory V} (at_i : (p.rows s)[i]? = some r) :
    i < c.batch ∧ c.row i = r := by
  obtain ⟨inside, found⟩ := List.getElem?_eq_some_iff.mp at_i
  have below : i < c.batch := h.batch ▸ inside
  refine ⟨below, ?_⟩
  rw [← found, ← rows_getElem (by simpa using below)]
  congr 1
  exact h.rows

theorem new_shows {kStep : Nat} {leftPadding : List Nat} (step : 0 < kStep) :
    Shows s (.new kStep leftPadding : Program V)
      (BatchKVCache.new kStep s.nLayers (leftPadding.map Nat.cast) s.qcfg) where
  wf := new_wf step (by simp)
  rows := by simp [new_rows, Program.rows, Function.comp_def]
  layers := by simp [BatchKVCache.new]
  qcfg := rfl
  stocked := False.elim

theorem fromPrefix_shows {kStep : Nat} {blocks : List (KVBlock V)} {len : Int}
    (valid : (Program.fromPrefix kStep blocks len).Valid s) :
    ∃ c, (Program.fromPrefix kStep blocks len).exec s = .ok c ∧ Shows s (.fromPrefix kStep blocks len) c := by
  obtain ⟨step, positive, short, shaped⟩ := valid
  by_cases empty : len ≤ 0
  · have fresh : BatchKVCache.fromPrefix kStep s.nLayers blocks len s.qcfg =
        .ok (BatchKVCache.new kStep s.nLayers [0] s.qcfg : BatchKVCache V) := by
      simp [BatchKVCache.fromPrefix, empty, pure, Except.pure]
    refine ⟨_, fresh, new_wf step (by simp), ?_, by simp [BatchKVCache.new], rfl, fun written => ?_⟩
    · simp [new_rows, Program.rows, Int.toNat_of_nonpos empty]
    · exact absurd (show 0 < len from written) (by omega)
  · obtain ⟨n, rfl⟩ := Int.eq_ofNat_of_zero_le (show 0 ≤ len by omega)
    obtain ⟨c, ok, wf, stocked, rows, layers, qcfg, _, _⟩ := fromPrefix_spec s.qcfg step positive
      (show 0 < n by omega) (by exact_mod_cast short) shaped
    exact ⟨c, ok, wf, rows, layers, qcfg, fun _ => stocked⟩

/-- Every operation succeeds on the caches of valid programs and acts on the rows as specified. -/
theorem exec_shows (valid : p.Valid s) : ∃ c, p.exec s = .ok c ∧ Shows s p c := by
  induction p with
  | new kStep leftPadding => exact ⟨_, rfl, new_shows valid⟩
  | fromPrefix kStep blocks len => exact fromPrefix_shows valid
  | fromSingleSequence kStep kvPerLayer seq decodeOffset =>
    obtain ⟨step, dense, layers, shape⟩ := valid
    obtain ⟨wf, stocked, rows⟩ := fromSingleSequence_spec decodeOffset step shape
    exact ⟨_, rfl, wf, rows, by simpa [BatchKVCache.fromSingleSequence] using layers, dense.symm, fun _ => stocked⟩
  | forward p n chunk ih =>
    obtain ⟨valid, count, shape⟩ := valid
    obtain ⟨c, ok, shows⟩ := ih valid
    obtain ⟨c', ok', wf, stocked, rows, layers, qcfg, _⟩ := forward_spec shows.wf
      (count.trans shows.layers.symm) (shows.batch ▸ shape)
    refine ⟨c', by simp only [exec, ok, ok_bind, ok'], wf, ?_, layers.trans shows.layers,
      qcfg.trans shows.qcfg, fun _ => stocked⟩
    rw [rows, shows.rows, shows.qcfg]
    rfl
  | filter p keep ih =>
    obtain ⟨valid, some, kept⟩ := valid
    obtain ⟨c, ok, shows⟩ := ih valid
    have inside : ∀ i ∈ keep, i < c.batch := fun i member =>
      (shows.row (kept i member).choose_spec.1).1
    have padded : ∀ i ∈ keep, c.padding i ≤ c.idx := by
      intro i member
      obtain ⟨r, found, pad⟩ := kept i member
      rw [← (shows.row found).2] at pad
      simp only [BatchKVCache.row] at pad
      omega
    obtain ⟨wf, stocked, rows, layers, qcfg, _⟩ := filter_spec shows.wf some inside padded
    refine ⟨c.filter keep, by simp only [exec, ok, ok_bind]; rfl, wf, ?_, layers.trans shows.layers,
      qcfg.trans shows.qcfg, fun written => stocked (shows.stocked written)⟩
    rw [rows]
    apply List.map_congr_left
    intro i member
    obtain ⟨r, found, _⟩ := kept i member
    rw [(shows.row found).2, List.getD_eq_getElem?_getD, found, Option.getD_some]
  | merge p q ihp ihq =>
    obtain ⟨validP, validQ, writtenP, writtenQ⟩ := valid
    obtain ⟨c, okP, showsP⟩ := ihp validP
    obtain ⟨other, okQ, showsQ⟩ := ihq validQ
    obtain ⟨c', ok, wf, stocked, rows, layers, qcfg, _⟩ := merge_spec showsP.wf showsQ.wf
      (showsP.stocked writtenP) (showsQ.stocked writtenQ) (showsP.qcfg.trans showsQ.qcfg.symm)
      (showsP.layers.trans showsQ.layers.symm)
    refine ⟨c', by simp only [exec, okP, okQ, ok_bind, ok], wf, ?_, layers.trans showsP.layers,
      qcfg.trans showsP.qcfg, fun _ => stocked⟩
    rw [rows, showsP.rows, showsQ.rows]
    rfl
  | padDummies p extra ih =>
    obtain ⟨c, ok, shows⟩ := ih valid
    obtain ⟨c', ok', wf, stocked, rows, layers, qcfg, _, _⟩ := padDummies_spec shows.wf extra
    refine ⟨c', by simp only [exec, ok, ok_bind, ok'], wf, ?_, layers.trans shows.layers,
      qcfg.trans shows.qcfg, fun written => stocked (shows.stocked written)⟩
    rw [rows, shows.rows, shows.layers]
    rfl

end Program

/-- A well-formed cache never claims more positions than its allocated slots. -/
theorem Wf.capacity {c : BatchKVCache V} (wf : c.Wf) {l : Layer V} (member : l ∈ c.layers) :
    (l.keys ≠ [] → c.idx ≤ seqLen l.keys) ∧ (l.values ≠ [] → c.idx ≤ seqLen l.values) := by
  rcases wf.store with ⟨start, _⟩ | stocked
  · rw [start]
    exact ⟨fun _ => by omega, fun _ => by omega⟩
  · have written := stocked l member
    obtain ⟨kc, kRoom, keys⟩ := written.keysRoom
    obtain ⟨vc, vRoom, values⟩ := written.valuesRoom
    rw [wf.idx_eq]
    exact ⟨fun some => by rw [seqLen_stored keys some]; omega,
      fun some => by rw [seqLen_stored values some]; omega⟩

/-- Whatever operations built a cache, each row's slots between its padding and `idx` hold what was
written for that row, in order, and `idx` stays within every allocated layer. -/
theorem exec_refines [Slot V] {s : Shape} {p : Program V} (valid : p.Valid s) :
    ∃ c, p.exec s = .ok c ∧ c.rows = p.rows s ∧ c.layers.length = s.nLayers ∧
      ∀ l ∈ c.layers, (l.keys ≠ [] → c.idx ≤ seqLen l.keys) ∧ (l.values ≠ [] → c.idx ≤ seqLen l.values) := by
  obtain ⟨c, ok, shows⟩ := Program.exec_shows valid
  exact ⟨c, ok, shows.rows, shows.layers, fun _ member => shows.wf.capacity member⟩

section witness

/-- Two rows prefilled together, the padded one kept, a third request admitted beside it. -/
def admission : Program Int :=
  .padDummies
    (.merge
      (.filter (.forward (.new 256 [0, 1]) 2 [(⟨2, 2, fun b t => 10 * b + t⟩, ⟨2, 2, fun b t => -(10 * b + t)⟩)]) [1])
      (.forward (.new 256 [0]) 2 [(⟨1, 2, fun _ t => 20 + t⟩, ⟨1, 2, fun _ t => -(20 + t)⟩)]))
    1

theorem exec_refines_admission : ∃ c, admission.exec ⟨1, 256, {}⟩ = .ok c ∧
    c.rows = [⟨0, 1, [[⟨[11], [-11]⟩]]⟩, ⟨0, 2, [[⟨[20], [-20]⟩, ⟨[21], [-21]⟩]]⟩, ⟨0, 0, [[]]⟩] := by
  have valid : admission.Valid ⟨1, 256, {}⟩ := by
    simp [admission, Program.Valid, Program.Written, Program.rows, ChunkShape, RowHistory.append]
  obtain ⟨c, ok, rows, _⟩ := exec_refines valid
  exact ⟨c, ok, by rw [rows]; decide⟩

end witness

end BatchKVCache

end Mlxforge
