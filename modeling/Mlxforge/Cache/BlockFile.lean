import Mlxforge.Lib.ByteReader

/-!
The file of one spilled block: a header, then each layer's K and V components with their shapes and raw bytes.
-/

namespace Mlxforge

open ByteReader

inductive StorageDtype where
  | float16 | uint32
  deriving DecidableEq, Repr

/-- `dtype_code`. -/
def StorageDtype.code : StorageDtype → Nat
  | .float16 => 0
  | .uint32 => 1

def StorageDtype.width : StorageDtype → Nat
  | .float16 => 2
  | .uint32 => 4

/-- A component array as its contiguous buffer. -/
structure StoredArray where
  dtype : StorageDtype
  shape : List Int
  data : Bytes
  deriving DecidableEq, Repr

structure StoredBlock where
  k : List (List StoredArray)
  v : List (List StoredArray)
  bytes : Nat := 0
  deriving DecidableEq, Repr

def kMagic : Nat := 0x3142564b46584c4d
def kVersion : Nat := 1

/-- `block_bytes`. -/
def StoredBlock.blockBytes (b : StoredBlock) : Nat :=
  (b.k.flatten.map (·.data.length)).sum + (b.v.flatten.map (·.data.length)).sum

/-! ### Writing -/

def blockHeader (salt : UInt64) (nLayers kComps vComps : Nat) : Bytes :=
  littleEndian 8 kMagic ++ (littleEndian 4 kVersion ++ (littleEndian 8 salt.toNat ++
    (littleEndian 4 nLayers ++ (littleEndian 4 kComps ++ littleEndian 4 vComps))))

def componentHeader (c : StoredArray) : Bytes :=
  littleEndian 4 c.dtype.code ++ (((List.range 4).map fun d => c.shape.getD d 0).flatMap (littleEndian 4) ++
    littleEndian 8 c.data.length)

def serializeComponent (c : StoredArray) : Bytes := componentHeader c ++ c.data

def serializeBlock (block : StoredBlock) (salt : UInt64) : Bytes :=
  let comps := (List.range block.k.length).flatMap fun l => block.k.getD l [] ++ block.v.getD l []
  blockHeader salt block.k.length (block.k.headD []).length (block.v.headD []).length ++ comps.flatMap serializeComponent

/-! ### Reading -/

/-- The bits of an `int32_t`. -/
def toInt32 (n : Nat) : Int := if n < 2 ^ 31 then n else n - 2 ^ 32

def readDim : ByteReader Int := do
  let d ← le 4
  check (0 < toInt32 d)
  return toInt32 d

/-- The product of the dimensions as the code computes it, in `size_t`. -/
def elems (shape : List Int) : UInt64 := shape.foldl (fun n d => n * .ofInt d) 1

/-- `read_comp`. -/
def readComponent : ByteReader StoredArray := do
  let code ← le 4
  check (code ≤ 1)
  let shape ← times readDim 4
  let nbytes ← le 8
  let data ← take nbytes
  let dtype : StorageDtype := if code = 0 then .float16 else .uint32
  check (UInt64.ofNat nbytes = elems shape * .ofNat dtype.width)
  return { dtype, shape, data }

def readLayer (kComps vComps : Nat) : ByteReader (List StoredArray × List StoredArray) := do
  let k ← times readComponent kComps
  let v ← times readComponent vComps
  return (k, v)

def readBlock (salt : UInt64) : ByteReader StoredBlock := do
  let magic ← le 8
  check (magic = kMagic)
  let version ← le 4
  check (version = kVersion)
  let fileSalt ← le 8
  check (fileSalt = salt.toNat)
  let nLayers ← le 4
  let kComps ← le 4
  let vComps ← le 4
  check (¬(nLayers = 0 ∨ nLayers > 4096 ∨ kComps > 3 ∨ vComps > 3))
  let layers ← times (readLayer kComps vComps) nLayers
  let block : StoredBlock := { k := layers.map Prod.fst, v := layers.map Prod.snd }
  return { block with bytes := block.blockBytes }

def deserializeBlock (bytes : Bytes) (salt : UInt64) : Option StoredBlock := (readBlock salt bytes).map Prod.fst

/-! ### What is written is read back -/

namespace StoredArray

/-- The number of elements, in exact arithmetic. -/
def elements (c : StoredArray) : Int := c.shape.prod

/-- An array of four positive dimensions over its buffer, whose size is a `size_t`. -/
structure Sound (c : StoredArray) : Prop where
  rank : c.shape.length = 4
  dims : ∀ d ∈ c.shape, 0 < d ∧ d < 2 ^ 31
  size : c.elements * c.dtype.width = c.data.length
  fits : c.data.length < 2 ^ 64

variable {c : StoredArray}

theorem elems_toNat {shape : List Int} (positive : ∀ d ∈ shape, 0 < d) : (elems shape).toNat = shape.prod.toNat % 2 ^ 64 := by
  have from_n : ∀ (shape : List Int) (n : UInt64), (∀ d ∈ shape, 0 < d) →
      (shape.foldl (fun n d => n * .ofInt d) n).toNat = n.toNat * shape.prod.toNat % 2 ^ 64 := by
    intro shape
    induction shape with
    | nil =>
      intro n _
      simp [Nat.mod_eq_of_lt n.toNat_lt]
    | cons d shape ih =>
      intro n positive
      have first := positive d (by simp)
      have digit : (UInt64.ofInt d).toNat = d.toNat % 2 ^ 64 := by
        rw [UInt64.ofInt, UInt64.toNat_ofNat']
        omega
      rw [List.foldl_cons, ih _ fun e member => positive e (by simp [member]), UInt64.toNat_mul, digit, List.prod_cons,
        Int.toNat_mul first.le (List.prod_nonneg fun e member => (positive e (by simp [member])).le), Nat.mul_mod_mod,
        Nat.mod_mul_mod, Nat.mul_assoc]
  rw [elems, from_n shape 1 positive, UInt64.toNat_one, Nat.one_mul]

theorem Sound.elements_nonneg (sound : c.Sound) : 0 ≤ c.elements :=
  List.prod_nonneg fun d member => (sound.dims d member).1.le

theorem dim_bytes {d : Int} (positive : 0 < d) (small : d < 2 ^ 31) :
    Exact readDim (littleEndian 4 d) d := by
  obtain ⟨n, rfl⟩ := Int.eq_ofNat_of_zero_le positive.le
  have same : toInt32 n = n := if_pos (by omega)
  have tail : Exact (do check (0 < toInt32 n); return toInt32 n) [] (toInt32 n) :=
    (exact_check (by rw [same]; exact positive)).bind_pure
  have read : Exact readDim (littleEndian 4 n ++ []) (toInt32 n) := (exact_le (n := 4) (v := n) (by omega)).bind tail
  rwa [same, List.append_nil] at read

theorem Sound.shape (sound : c.Sound) : ((List.range 4).map fun d => c.shape.getD d 0) = c.shape := by
  apply List.ext_getElem
  · rw [List.length_map, List.length_range, sound.rank]
  · intro i _ inside
    simp [inside]

/-- Without overflow the check on the length passes. -/
theorem Sound.length (sound : c.Sound) : UInt64.ofNat c.data.length = elems c.shape * .ofNat c.dtype.width := by
  have count : c.elements.toNat * c.dtype.width = c.data.length := by
    have size := sound.size
    have nonneg := sound.elements_nonneg
    obtain ⟨n, eq⟩ := Int.eq_ofNat_of_zero_le nonneg
    rw [eq] at size ⊢
    exact_mod_cast size
  apply UInt64.toNat_inj.mp
  rw [UInt64.toNat_mul, elems_toNat fun d member => (sound.dims d member).1, UInt64.toNat_ofNat', UInt64.toNat_ofNat',
    Nat.mod_mul_mod, Nat.mul_mod_mod]
  exact congrArg (· % 2 ^ 64) count.symm

theorem Sound.exact (sound : c.Sound) : Exact readComponent (serializeComponent c) c := by
  have code : c.dtype.code ≤ 1 := by cases c.dtype <;> decide
  have dtype : (if c.dtype.code = 0 then StorageDtype.float16 else .uint32) = c.dtype := by cases c.dtype <;> rfl
  have dims : Exact (times readDim 4) (c.shape.flatMap (littleEndian 4)) c.shape := by
    have read : Exact (times readDim c.shape.length) (c.shape.flatMap (littleEndian 4)) c.shape := exact_times fun d member =>
      dim_bytes (sound.dims d member).1 (sound.dims d member).2
    rwa [sound.rank] at read
  have nbytes : Exact (le 8) (littleEndian 8 c.data.length) c.data.length := exact_le sound.fits
  have finish : Exact (do
      check (UInt64.ofNat c.data.length = elems c.shape * .ofNat c.dtype.width)
      return ({ dtype := c.dtype, shape := c.shape, data := c.data } : StoredArray)) [] c :=
    (exact_pure c).checked sound.length
  unfold serializeComponent componentHeader
  rw [sound.shape, List.append_assoc, List.append_assoc]
  have data : Exact (take c.data.length >>= fun data => do
      let dtype : StorageDtype := if c.dtype.code = 0 then .float16 else .uint32
      check (UInt64.ofNat c.data.length = elems c.shape * .ofNat dtype.width)
      return ({ dtype, shape := c.shape, data } : StoredArray)) (c.data ++ []) c := by
    refine (exact_take c.data).bind ?_
    dsimp only
    rw [dtype]
    exact finish
  rw [List.append_nil] at data
  refine (exact_le (n := 4) (v := c.dtype.code) (by omega)).bind ?_
  refine Exact.checked ?_ code
  exact dims.bind (nbytes.bind data)

end StoredArray

namespace StoredBlock

/-- What the pool holds: the same few components in every layer. -/
structure Uniform (b : StoredBlock) : Prop where
  layers : 1 ≤ b.k.length ∧ b.k.length ≤ 4096
  values : b.v.length = b.k.length
  keyComps : ∃ n, (1 ≤ n ∧ n ≤ 3) ∧ ∀ layer ∈ b.k, layer.length = n
  valueComps : ∃ n, (1 ≤ n ∧ n ≤ 3) ∧ ∀ layer ∈ b.v, layer.length = n
  sound : ∀ layer ∈ b.k ++ b.v, ∀ c ∈ layer, c.Sound

variable {b : StoredBlock} {salt : UInt64}

def serializeLayer (layer : List StoredArray × List StoredArray) : Bytes :=
  (layer.1 ++ layer.2).flatMap serializeComponent

theorem serializeBlock_eq (values : b.v.length = b.k.length) (salt : UInt64) :
    serializeBlock b salt = blockHeader salt b.k.length (b.k.headD []).length (b.v.headD []).length ++
      (b.k.zip b.v).flatMap serializeLayer := by
  have layers : ((List.range b.k.length).map fun l => b.k.getD l [] ++ b.v.getD l []) =
      (b.k.zip b.v).map fun layer => layer.1 ++ layer.2 := by
    apply List.ext_getElem
    · simp [values]
    · intro i inside _
      have keys : i < b.k.length := by simpa using inside
      have values : i < b.v.length := by omega
      simp [keys, values]
  have comps : ((List.range b.k.length).flatMap fun l => b.k.getD l [] ++ b.v.getD l []) =
      (b.k.zip b.v).flatMap fun layer => layer.1 ++ layer.2 := by
    rw [List.flatMap_def, layers, ← List.flatMap_def]
  unfold serializeBlock serializeLayer
  dsimp only
  rw [comps, List.flatMap_assoc]

theorem comps_head {layers : List (List StoredArray)} {n : Nat} (some : 1 ≤ layers.length)
    (all : ∀ layer ∈ layers, layer.length = n) : (layers.headD []).length = n := by
  cases layers with
  | nil => cases some
  | cons layer layers => exact all layer (by simp)

/-- The body of the reader, after the magic, the version and the salt. -/
theorem Uniform.exact (uniform : b.Uniform) (salt : UInt64) :
    Exact (readBlock salt) (serializeBlock b salt) { b with bytes := b.blockBytes } := by
  obtain ⟨m, keyBounds, keyComps⟩ := uniform.keyComps
  obtain ⟨n, valueBounds, valueComps⟩ := uniform.valueComps
  have layers := uniform.layers
  have count : (b.k.zip b.v).length = b.k.length := by rw [List.length_zip, uniform.values, Nat.min_self]
  have layer : ∀ l ∈ b.k.zip b.v, Exact (readLayer m n) (serializeLayer l) l := by
    intro l member
    obtain ⟨inKeys, inValues⟩ := List.of_mem_zip (a := l.1) (b := l.2) member
    have keys : Exact (times readComponent l.1.length) (l.1.flatMap serializeComponent) l.1 := exact_times fun c hc =>
      (uniform.sound l.1 (List.mem_append_left _ inKeys) c hc).exact
    have values : Exact (times readComponent l.2.length) (l.2.flatMap serializeComponent) l.2 := exact_times fun c hc =>
      (uniform.sound l.2 (List.mem_append_right _ inValues) c hc).exact
    rw [keyComps l.1 inKeys] at keys
    rw [valueComps l.2 inValues] at values
    unfold serializeLayer
    rw [List.flatMap_append]
    exact keys.bind values.bind_pure
  have body := exact_times layer
  rw [count] at body
  rw [serializeBlock_eq uniform.values, comps_head layers.1 keyComps,
    comps_head (by rw [uniform.values]; exact layers.1) valueComps]
  have bounds : ¬(b.k.length = 0 ∨ b.k.length > 4096 ∨ m > 3 ∨ n > 3) := by omega
  have salted : salt.toNat < 256 ^ 8 := salt.toNat_lt
  have fill : Exact (times (readLayer m n) b.k.length >>= fun layers => do
      let block : StoredBlock := { k := layers.map Prod.fst, v := layers.map Prod.snd }
      return { block with bytes := block.blockBytes }) ((b.k.zip b.v).flatMap serializeLayer)
        { b with bytes := b.blockBytes } := by
    have made := body.bind_pure (f := fun layers =>
      ({ k := layers.map Prod.fst, v := layers.map Prod.snd
         bytes := blockBytes { k := layers.map Prod.fst, v := layers.map Prod.snd } } : StoredBlock))
    rw [List.map_fst_zip uniform.values.ge, List.map_snd_zip uniform.values.le] at made
    exact made
  unfold blockHeader readBlock
  simp only [List.append_assoc]
  refine (exact_le (n := 8) (v := kMagic) (by decide)).bind (Exact.checked ?_ rfl)
  refine (exact_le (n := 4) (v := kVersion) (by decide)).bind (Exact.checked ?_ rfl)
  refine (exact_le (n := 8) salted).bind (Exact.checked ?_ rfl)
  refine (exact_le (n := 4) (v := b.k.length) (by omega)).bind ((exact_le (n := 4) (v := m) (by omega)).bind
    ((exact_le (n := 4) (v := n) (by omega)).bind ?_))
  exact fill.checked bounds

theorem Uniform.reads (uniform : b.Uniform) (salt : UInt64) :
    deserializeBlock (serializeBlock b salt) salt = some { b with bytes := b.blockBytes } := by
  have read := (uniform.exact salt).reads []
  rw [List.append_nil] at read
  rw [deserializeBlock, read]
  rfl

/-- A file of another salt is refused after the header. -/
theorem other_salt {salt salt' : UInt64} (other : salt' ≠ salt) (b : StoredBlock) :
    deserializeBlock (serializeBlock b salt) salt' = none := by
  have salted : salt.toNat < 256 ^ 8 := salt.toNat_lt
  have differ : ¬salt.toNat = salt'.toNat := fun same => other (UInt64.toNat_inj.mp same.symm)
  have refused : readBlock salt' (serializeBlock b salt) = none := by
    unfold serializeBlock blockHeader readBlock
    simp only [List.append_assoc]
    rw [bind_of_some ((exact_le (n := 8) (v := kMagic) (by decide)).reads _), check_bind rfl,
      bind_of_some ((exact_le (n := 4) (v := kVersion) (by decide)).reads _), check_bind rfl,
      bind_of_some ((exact_le (n := 8) salted).reads _), check_bind_not differ]
  rw [deserializeBlock, refused]
  rfl

/-- A uniform block is read back from its file; no part of the file that is cut short is read, and nothing under another
salt. -/
theorem Uniform.roundTrip (uniform : b.Uniform) (salt : UInt64) :
    deserializeBlock (serializeBlock b salt) salt = some { b with bytes := b.blockBytes } ∧
      (∀ part, part <+: serializeBlock b salt → part ≠ serializeBlock b salt → deserializeBlock part salt = none) ∧
      ∀ salt', salt' ≠ salt → deserializeBlock (serializeBlock b salt) salt' = none := by
  refine ⟨uniform.reads salt, fun part before short => ?_, fun salt' other => other_salt other b⟩
  rw [deserializeBlock, (uniform.exact salt).cut part before short]
  rfl

/-- One layer, one half-precision key and one value of one element each. -/
def tiny : StoredBlock where
  k := [[⟨.float16, [1, 1, 1, 1], [0x00, 0x3C]⟩]]
  v := [[⟨.float16, [1, 1, 1, 1], [0x00, 0xBC]⟩]]
  bytes := 4

theorem tiny_uniform : tiny.Uniform := by
  refine ⟨by decide, rfl, ⟨1, by decide, by decide⟩, ⟨1, by decide, by decide⟩, fun layer member c among => ?_⟩
  have listed : c = ⟨.float16, [1, 1, 1, 1], [0x00, 0x3C]⟩ ∨ c = ⟨.float16, [1, 1, 1, 1], [0x00, 0xBC]⟩ := by
    rcases List.mem_append.mp member with member | member
    · obtain rfl := List.mem_singleton.mp member
      exact .inl (List.mem_singleton.mp among)
    · obtain rfl := List.mem_singleton.mp member
      exact .inr (List.mem_singleton.mp among)
  obtain rfl | rfl := listed
  · exact ⟨rfl, by decide, rfl, by decide⟩
  · exact ⟨rfl, by decide, rfl, by decide⟩

theorem roundTrip_tiny : deserializeBlock (serializeBlock tiny 7) 7 = some tiny ∧
    (∀ part, part <+: serializeBlock tiny 7 → part ≠ serializeBlock tiny 7 → deserializeBlock part 7 = none) ∧
    ∀ salt', salt' ≠ 7 → deserializeBlock (serializeBlock tiny 7) salt' = none := tiny_uniform.roundTrip 7

/-! ### What is read lies in the file -/

/-- The component's bytes lie in the file behind its header, and are as many as its dimensions say. -/
def Inside (bytes : Bytes) (c : StoredArray) : Prop :=
  c.elements * c.dtype.width = c.data.length ∧ ∃ before after, bytes = before ++ (componentHeader c ++ c.data) ++ after

/-- What the reader checks of a component. -/
structure Checked (c : StoredArray) : Prop where
  rank : c.shape.length = 4
  dims : ∀ d ∈ c.shape, 0 < d
  size : UInt64.ofNat c.data.length = elems c.shape * .ofNat c.dtype.width
  fits : c.data.length < 2 ^ 64

theorem readDim_some {bytes rest : Bytes} {d : Int} (read : readDim bytes = some (d, rest)) :
    bytes = littleEndian 4 d ++ rest ∧ 0 < d := by
  obtain ⟨n, between, first, read₁⟩ := bind_some read
  obtain ⟨rfl, small⟩ := le_some first
  obtain ⟨_, _, second, read₂⟩ := bind_some read₁
  obtain ⟨positive, rfl⟩ := check_some second
  obtain ⟨rfl, rfl⟩ := pure_some read₂
  refine ⟨?_, positive⟩
  have same : toInt32 n = n := by
    unfold toInt32 at positive ⊢
    split
    · rfl
    · rename_i large
      rw [if_neg large] at positive
      omega
  rw [same]

theorem readComponent_some {bytes rest : Bytes} {c : StoredArray} (read : readComponent bytes = some (c, rest)) :
    bytes = serializeComponent c ++ rest ∧ Checked c := by
  obtain ⟨code, _, first, read₁⟩ := bind_some read
  obtain ⟨rfl, -⟩ := le_some first
  obtain ⟨_, _, second, read₂⟩ := bind_some read₁
  obtain ⟨known, rfl⟩ := check_some second
  obtain ⟨shape, _, third, read₃⟩ := bind_some read₂
  obtain ⟨rfl, positive, rank⟩ := times_some readDim_some third
  obtain ⟨nbytes, _, fourth, read₄⟩ := bind_some read₃
  obtain ⟨rfl, fits⟩ := le_some fourth
  obtain ⟨data, _, fifth, read₅⟩ := bind_some read₄
  obtain ⟨rfl, rfl⟩ := take_some fifth
  dsimp only at read₅
  obtain ⟨_, _, sixth, read₆⟩ := bind_some read₅
  obtain ⟨size, rfl⟩ := check_some sixth
  obtain ⟨rfl, rfl⟩ := pure_some read₆
  have whole : ((List.range 4).map fun d => shape.getD d 0) = shape := by
    apply List.ext_getElem
    · rw [List.length_map, List.length_range, rank]
    · intro i _ inside
      simp [inside]
  have coded : code = (if code = 0 then StorageDtype.float16 else .uint32).code := by
    split
    · assumption
    · rename_i other
      exact Nat.le_antisymm known (Nat.pos_of_ne_zero other)
  refine ⟨?_, rank, positive, size, fits⟩
  simp only [serializeComponent, componentHeader, whole, ← coded, List.append_assoc]

theorem readLayer_some {m n : Nat} {bytes rest : Bytes} {l : List StoredArray × List StoredArray}
    (read : readLayer m n bytes = some (l, rest)) :
    bytes = serializeLayer l ++ rest ∧ ∀ c ∈ l.1 ++ l.2, Checked c := by
  obtain ⟨k, _, first, read₁⟩ := bind_some read
  obtain ⟨v, _, second, read₂⟩ := bind_some read₁
  obtain ⟨rfl, rfl⟩ := pure_some read₂
  obtain ⟨rfl, keys, -⟩ := times_some readComponent_some first
  obtain ⟨rfl, values, -⟩ := times_some readComponent_some second
  refine ⟨?_, fun c member => (List.mem_append.mp member).elim (keys c) (values c)⟩
  rw [serializeLayer, List.flatMap_append, List.append_assoc]

/-- An accepted file is a header and its layers, whatever follows them. -/
theorem deserializeBlock_some {bytes : Bytes} (accepted : deserializeBlock bytes salt = some b) :
    ∃ (layers : List (List StoredArray × List StoredArray)) (m n : Nat) (rest : Bytes),
      bytes = blockHeader salt layers.length m n ++ layers.flatMap serializeLayer ++ rest ∧
      b.k = layers.map Prod.fst ∧ b.v = layers.map Prod.snd ∧ ∀ l ∈ layers, ∀ c ∈ l.1 ++ l.2, Checked c := by
  obtain ⟨⟨_, rest⟩, read, rfl⟩ := Option.map_eq_some_iff.mp accepted
  obtain ⟨magic, _, read₁, tail₁⟩ := bind_some read
  obtain ⟨rfl, -⟩ := le_some read₁
  obtain ⟨_, _, read₂, tail₂⟩ := bind_some tail₁
  obtain ⟨rfl, rfl⟩ := check_some read₂
  obtain ⟨version, _, read₃, tail₃⟩ := bind_some tail₂
  obtain ⟨rfl, -⟩ := le_some read₃
  obtain ⟨_, _, read₄, tail₄⟩ := bind_some tail₃
  obtain ⟨rfl, rfl⟩ := check_some read₄
  obtain ⟨fileSalt, _, read₅, tail₅⟩ := bind_some tail₄
  obtain ⟨rfl, -⟩ := le_some read₅
  obtain ⟨_, _, read₆, tail₆⟩ := bind_some tail₅
  obtain ⟨rfl, rfl⟩ := check_some read₆
  obtain ⟨count, _, read₇, tail₇⟩ := bind_some tail₆
  obtain ⟨rfl, -⟩ := le_some read₇
  obtain ⟨m, _, read₈, tail₈⟩ := bind_some tail₇
  obtain ⟨rfl, -⟩ := le_some read₈
  obtain ⟨n, _, read₉, tail₉⟩ := bind_some tail₈
  obtain ⟨rfl, -⟩ := le_some read₉
  obtain ⟨_, _, checked, tail₁₀⟩ := bind_some tail₉
  obtain ⟨-, rfl⟩ := check_some checked
  obtain ⟨layers, after, read₁₁, tail₁₁⟩ := bind_some tail₁₀
  obtain ⟨rfl, rfl⟩ := pure_some tail₁₁
  obtain ⟨rfl, all, rfl⟩ := times_some readLayer_some read₁₁
  refine ⟨layers, m, n, after, ?_, rfl, rfl, all⟩
  simp only [blockHeader, List.append_assoc]

variable {c : StoredArray}

/-- The check on the length holds in exact arithmetic where the product does not overflow. -/
theorem Checked.exact_iff (checked : Checked c) :
    c.elements * c.dtype.width = c.data.length ↔ c.elements * c.dtype.width < 2 ^ 64 := by
  obtain ⟨n, count⟩ := Int.eq_ofNat_of_zero_le (List.prod_nonneg fun d member => (checked.dims d member).le)
  have size := congrArg UInt64.toNat checked.size
  rw [UInt64.toNat_mul, StoredArray.elems_toNat checked.dims, UInt64.toNat_ofNat', UInt64.toNat_ofNat', Nat.mod_mul_mod,
    Nat.mul_mod_mod, count, Int.toNat_natCast, Nat.mod_eq_of_lt checked.fits] at size
  have fits := checked.fits
  rw [StoredArray.elements, count, ← Int.natCast_mul]
  constructor
  · intro same
    omega
  · intro small
    rw [Nat.mod_eq_of_lt (by exact_mod_cast small)] at size
    rw [size]

theorem mem_layer {layers : List (List StoredArray × List StoredArray)} {l : List StoredArray × List StoredArray}
    (keys : b.k = layers.map Prod.fst) (values : b.v = layers.map Prod.snd) (member : l ∈ layers) (among : c ∈ l.1 ++ l.2) :
    ∃ layer ∈ b.k ++ b.v, c ∈ layer := by
  rw [keys, values]
  rcases List.mem_append.mp among with among | among
  · exact ⟨l.1, List.mem_append_left _ (List.mem_map_of_mem member), among⟩
  · exact ⟨l.2, List.mem_append_right _ (List.mem_map_of_mem member), among⟩

/-- A key of 65536 elements in each of four dimensions: 2^64 elements, and no bytes. -/
def hollow : StoredBlock where
  k := [[⟨.float16, [65536, 65536, 65536, 65536], []⟩]]
  v := [[]]

end StoredBlock

end Mlxforge
