import Mlxforge.Lib.ByteReader
import Mathlib.Tactic

/-!
# Engine options across the C ABI

`mlxforge_engine_create2` reads a field of the caller's struct only where `struct_size` covers it to its end. Every field
has a value that means the engine's default, and it is zero.
-/

namespace Mlxforge

/-- The fields of `mlxforge_engine_opts2` in the order of their declaration. -/
inductive OptsField where
  | structSize | maxWaiting | kvBits | kvGroupSize | prefixCache | kvBlockSize | kvPoolBytes | kvSpillDir | kvSpillBytes
  | prefillChunk | skinnyMm | ropeScaling
  deriving DecidableEq, Repr

namespace OptsField

def all : List OptsField :=
  [structSize, maxWaiting, kvBits, kvGroupSize, prefixCache, kvBlockSize, kvPoolBytes, kvSpillDir, kvSpillBytes,
    prefillChunk, skinnyMm, ropeScaling]

/-- `int` has four bytes; `size_t`, `long long` and pointers have eight. -/
def size : OptsField → Nat
  | structSize | kvPoolBytes | kvSpillDir | kvSpillBytes | ropeScaling => 8
  | _ => 4

/-- A field starts at the next multiple of its size. -/
def place (start : Nat) (f : OptsField) : Nat := (start + f.size - 1) / f.size * f.size

def offsetFrom : Nat → List OptsField → OptsField → Nat
  | start, [], _ => start
  | start, g :: gs, f => if f = g then place start g else offsetFrom (place start g + g.size) gs f

def offset (f : OptsField) : Nat := offsetFrom 0 all f

/-- `&opts->f + 1`, counted from `opts`. -/
def stop (f : OptsField) : Nat := f.offset + f.size

example : all.map offset = [0, 8, 12, 16, 20, 24, 32, 40, 48, 56, 60, 64] := by decide

def sizeOf : Nat := ropeScaling.stop

end OptsField

/-- The memory from `opts` on, whatever of it is the caller's struct. -/
abbrev OptsMemory := Nat → UInt8

namespace OptsMemory

/-- The bytes of a field as an unsigned number. -/
def raw (m : OptsMemory) (f : OptsField) : Nat := fromLittleEndian ((List.range f.size).map fun i => m (f.offset + i))

def structSize (m : OptsMemory) : Nat := m.raw .structSize

end OptsMemory

namespace Capi

/-- What `mlxforge_engine_create2` hands to the engine. -/
structure EngineConfig where
  modelSpec : Bytes
  maxWaiting : Int := 256
  kvBits : Int := 0
  kvGroupSize : Int := 64
  prefixCache : Bool := false
  kvBlockSize : Int := 256
  kvPoolBytes : Nat := 1073741824
  kvSpillDir : Bytes := []
  kvSpillBytes : Nat := 0
  prefillChunk : Int := 256
  skinnyMm : Bool := true
  ropeScaling : Bytes := []
  deriving DecidableEq

/-- `if (covered(&opts->f + 1) && accept(opts->f)) cfg.f = value(opts->f)`. -/
def assign {α : Type} (opts : Option OptsMemory) (f : OptsField) (accept : Nat → Bool) (value : Nat → α) (default : α) :
    α :=
  match opts with
  | none => default
  | some m => if f.stop ≤ m.structSize ∧ accept (m.raw f) then value (m.raw f) else default

/-- The value of an `int`. -/
def int (n : Nat) : Int := (n : Int).bmod (2 ^ 32)

/-- The value of a `long long`. -/
def longLong (n : Nat) : Int := (n : Int).bmod (2 ^ 64)

/-- The config for `opts`. `strings` are the C strings that stand in memory. -/
def engineConfig (strings : Nat → Bytes) (modelSpec : Bytes) (opts : Option OptsMemory) : EngineConfig where
  modelSpec
  maxWaiting := assign opts .maxWaiting (fun n => 0 < int n) int 256
  kvBits := assign opts .kvBits (fun _ => true) int 0
  kvGroupSize := assign opts .kvGroupSize (fun n => 0 < int n) int 64
  prefixCache := assign opts .prefixCache (fun _ => true) (fun n => int n != 0) false
  kvBlockSize := assign opts .kvBlockSize (fun n => 0 < int n) int 256
  kvPoolBytes := assign opts .kvPoolBytes (fun n => longLong n != 0)
    (fun n => if longLong n < 0 then 0 else (longLong n).toNat) 1073741824
  kvSpillDir := assign opts .kvSpillDir (fun p => p != 0 && strings p != []) strings []
  kvSpillBytes := assign opts .kvSpillBytes (fun n => 0 < longLong n) (fun n => (longLong n).toNat) 0
  prefillChunk := assign opts .prefillChunk (fun n => int n != 0) (fun n => if int n < 0 then 0 else int n) 256
  skinnyMm := assign opts .skinnyMm (fun n => int n != 0) (fun n => 0 < int n) true
  ropeScaling := assign opts .ropeScaling (fun p => p != 0 && strings p != []) strings []

/-- `mlxforge_engine_create2` up to the construction of the engine. -/
def engineCreate2 (strings : Nat → Bytes) (modelSpec : Option Bytes) (opts : Option OptsMemory) :
    Except String EngineConfig :=
  match modelSpec with
  | none | some [] => .error "model_spec is null or empty"
  | some spec => .ok (engineConfig strings spec opts)

end Capi

namespace OptsMemory

/-- A struct of full size whose fields are those that `m` covers, and zero elsewhere. -/
def fullSize (m : OptsMemory) : OptsMemory := fun i =>
  if i < OptsField.structSize.stop then (littleEndian 8 OptsField.sizeOf).getD i 0
  else if ∃ f ∈ OptsField.all, f.offset ≤ i ∧ i < f.stop ∧ f.stop ≤ m.structSize then m i else 0

variable {m m' : OptsMemory} {f g : OptsField}

theorem raw_congr (same : ∀ i, f.offset ≤ i → i < f.stop → m i = m' i) : m.raw f = m'.raw f := by
  have bytes : ((List.range f.size).map fun i => m (f.offset + i)) = (List.range f.size).map fun i => m' (f.offset + i) := by
    apply List.map_congr_left
    intro i inside
    have below := List.mem_range.mp inside
    exact same _ (by omega) (by unfold OptsField.stop; omega)
  rw [raw, raw, bytes]

/-- No two fields share a byte. -/
theorem apart (other : f ≠ g) : f.stop ≤ g.offset ∨ g.stop ≤ f.offset := by
  revert other
  cases f <;> cases g <;> decide

theorem header_first (other : f ≠ .structSize) : OptsField.structSize.stop ≤ f.offset := by
  revert other
  cases f <;> decide

theorem stop_le_sizeOf (f : OptsField) : f.stop ≤ OptsField.sizeOf := by cases f <;> decide

theorem mem_all (f : OptsField) : f ∈ OptsField.all := by cases f <;> decide

theorem fullSize_structSize (m : OptsMemory) : m.fullSize.structSize = OptsField.sizeOf := by
  have header : m.fullSize.raw .structSize = raw (fun i => (littleEndian 8 OptsField.sizeOf).getD i 0) .structSize :=
    raw_congr fun i _ inside => if_pos inside
  rw [structSize, header]
  decide

theorem fullSize_covered (other : f ≠ .structSize) (covered : f.stop ≤ m.structSize) : m.fullSize.raw f = m.raw f := by
  apply raw_congr
  intro i low high
  have behind := header_first other
  rw [fullSize, if_neg (by omega), if_pos ⟨f, mem_all f, low, high, covered⟩]

theorem fullSize_uncovered (other : f ≠ .structSize) (uncovered : ¬f.stop ≤ m.structSize) : m.fullSize.raw f = 0 := by
  have zeros : m.fullSize.raw f = raw (fun _ => 0) f := by
    apply raw_congr
    intro i low high
    have behind := header_first other
    have none : ¬∃ g ∈ OptsField.all, g.offset ≤ i ∧ i < g.stop ∧ g.stop ≤ m.structSize := by
      intro ⟨g, _, low', high', covered⟩
      have same : f = g := by
        by_contra differ
        rcases apart differ with before | before <;> omega
      exact uncovered (same ▸ covered)
    rw [fullSize, if_neg (by omega), if_neg none]
  rw [zeros, raw, List.map_const', fromLittleEndian_zeros]

end OptsMemory

namespace Capi

variable {α : Type} {m m' : OptsMemory} {f : OptsField} {accept : Nat → Bool} {value : Nat → α} {default : α}

theorem assign_congr (size : m.structSize = m'.structSize) (same : f.stop ≤ m.structSize → m.raw f = m'.raw f) :
    assign (some m) f accept value default = assign (some m') f accept value default := by
  simp only [assign, ← size]
  by_cases covered : f.stop ≤ m.structSize
  · rw [same covered]
  · rw [if_neg (fun both => covered both.1), if_neg (fun both => covered both.1)]

/-- A field means the same when it is not covered as when it is zero. -/
theorem assign_fullSize (other : f ≠ .structSize) (zero : accept 0 = true → value 0 = default) :
    assign (some m.fullSize) f accept value default = assign (some m) f accept value default := by
  have room : f.stop ≤ m.fullSize.structSize := by
    rw [OptsMemory.fullSize_structSize]
    exact OptsMemory.stop_le_sizeOf f
  simp only [assign]
  by_cases covered : f.stop ≤ m.structSize
  · rw [OptsMemory.fullSize_covered other covered]
    simp only [room, covered]
  · have closed : ¬(f.stop ≤ m.structSize ∧ accept (m.raw f) = true) := fun both => covered both.1
    rw [OptsMemory.fullSize_uncovered other covered, if_neg closed]
    by_cases accepted : accept 0 = true
    · rw [if_pos ⟨room, accepted⟩, zero accepted]
    · rw [if_neg (fun both => accepted both.2)]

theorem engineConfig_congr (strings : Nat → Bytes) (spec : Bytes) (size : m.structSize = m'.structSize)
    (same : ∀ i < m.structSize, m i = m' i) :
    engineConfig strings spec (some m) = engineConfig strings spec (some m') := by
  have fields : ∀ f : OptsField, f.stop ≤ m.structSize → m.raw f = m'.raw f := fun f covered =>
    OptsMemory.raw_congr fun i _ inside => same i (by omega)
  simp only [engineConfig, assign_congr size (fields _)]

theorem engineConfig_fullSize (strings : Nat → Bytes) (spec : Bytes) (m : OptsMemory) :
    engineConfig strings spec (some m.fullSize) = engineConfig strings spec (some m) := by
  have none : int 0 = 0 ∧ longLong 0 = 0 := by decide
  simp only [engineConfig, EngineConfig.mk.injEq, true_and]
  refine ⟨?_, ?_, ?_, ?_, ?_, ?_, ?_, ?_, ?_, ?_, ?_⟩
  all_goals
    apply assign_fullSize (by decide)
    simp [none]

/-- Without a struct, and with one of zeros, the engine's own defaults are used. -/
theorem engineConfig_default (strings : Nat → Bytes) (spec : Bytes) :
    engineConfig strings spec none = { modelSpec := spec } ∧
      engineConfig strings spec (some fun _ => 0) = { modelSpec := spec } := by
  have size : OptsMemory.structSize (fun _ => 0) = 0 := by decide
  have open_ : ∀ f : OptsField, ¬f.stop ≤ 0 := by intro f; cases f <;> decide
  constructor
  · simp only [engineConfig, assign]
  · simp only [engineConfig, assign, size, open_, false_and, if_false]

/-- Two structs of one size that agree up to it give the same config, and an uncovered field is as good as a zero one. -/
theorem engineCreate2_covered (strings : Nat → Bytes) (modelSpec : Option Bytes) :
    (∀ m m' : OptsMemory, OptsField.structSize.stop ≤ m.structSize → m.structSize = m'.structSize →
        (∀ i < m.structSize, m i = m' i) →
        engineCreate2 strings modelSpec (some m) = engineCreate2 strings modelSpec (some m')) ∧
      ∀ m : OptsMemory, engineCreate2 strings modelSpec (some m) = engineCreate2 strings modelSpec (some m.fullSize) := by
  constructor
  · intro m m' _ size same
    unfold engineCreate2
    split
    · rfl
    · rfl
    · rw [engineConfig_congr strings _ size same]
  · intro m
    unfold engineCreate2
    split
    · rfl
    · rfl
    · rw [engineConfig_fullSize]

/-- An older client's struct of 16 bytes, in front of zeros and in front of sevens. -/
theorem engineCreate2_covered_older :
    engineCreate2 (fun _ => []) (some [0x6D]) (some fun i => if i = 0 then 16 else 0) =
      engineCreate2 (fun _ => []) (some [0x6D]) (some fun i => if i = 0 then 16 else if 16 ≤ i then 7 else 0) := by
  have size : OptsMemory.structSize (fun i => if i = 0 then 16 else 0) = 16 := by decide
  refine (engineCreate2_covered (fun _ => []) (some [0x6D])).1 _ _ (by decide) (by decide) ?_
  intro i inside
  rw [size] at inside
  rw [if_neg (show ¬16 ≤ i by omega)]

end Capi

end Mlxforge
