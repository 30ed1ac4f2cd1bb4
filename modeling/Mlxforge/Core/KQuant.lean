import Mlxforge.Core.GgufTruncation
import Mlxforge.Lib.Rows
import Mathlib.Data.Nat.Bitwise

/-!
The dequantization of `Q4_K`, `Q5_K` and `Q6_K` tensors: what the walks over the byte planes of a super-block assign is the
format's closed formula at every element, each element once.
-/

namespace Mlxforge

open StreamReader

variable {R : Type} [Floats R]

/-! ### The closed formula -/

section
variable (blk : Nat → Nat)

/-- Sub-block `j`'s 6-bit scale in the 12 packed bytes at 4: its two high bits lie apart for the last four. -/
def packedScale (j : Nat) : Nat := if j < 4 then blk (4 + j) % 64 else blk (8 + j) % 16 + 16 * (blk j / 64)

def packedMin (j : Nat) : Nat := if j < 4 then blk (8 + j) % 64 else blk (8 + j) / 16 + 16 * (blk (4 + j) / 64)

/-- The low nibble of a byte in even sub-blocks, its high one in odd ones. -/
def halfByte (j byte : Nat) : Nat := if j % 2 = 0 then byte % 16 else byte / 16

/-- The quant of element `i`. -/
def kQuant (type i : Nat) : Int :=
  if type = kGgmlQ4_K then halfByte (i / 32) (blk (16 + 32 * (i / 64) + i % 32))
  else if type = kGgmlQ5_K then
    (halfByte (i / 32) (blk (48 + 32 * (i / 64) + i % 32)) + 16 * (blk (16 + i % 32) / 2 ^ (i / 32) % 2) : Nat)
  else
    (halfByte (i / 64) (blk (64 * (i / 128) + i % 64)) +
      16 * (blk (128 + 32 * (i / 128) + i % 32) / 4 ^ (i / 32 % 4) % 4) : Nat) - 32

/-- The value of element `i` of a super-block. -/
def kQuantValue (R : Type) [Floats R] (type i : Nat) : R :=
  if type = kGgmlQ6_K then
    halfToFloat (le16 blk 208) * Floats.ofInt (signed 1 (blk (192 + i / 16))) * Floats.ofInt (kQuant blk type i)
  else
    halfToFloat (le16 blk 0) * Floats.ofInt (packedScale blk (i / 32)) * Floats.ofInt (kQuant blk type i) -
      halfToFloat (le16 blk 2) * Floats.ofInt (packedMin blk (i / 32))

end

/-! ### Bits -/

theorem or_shiftLeft_four {low : Nat} (small : low < 16) (high : Nat) : low ||| high <<< 4 = low + 16 * high := by
  rw [Nat.or_comm, ← Nat.shiftLeft_add_eq_or_of_lt (show low < 2 ^ 4 from small), Nat.shiftLeft_eq]
  omega

theorem and_fifteen (x : Nat) : x &&& 0x0F = x % 16 := Nat.and_two_pow_sub_one_eq_mod x 4

theorem and_three (x : Nat) : x &&& 3 = x % 4 := Nat.and_two_pow_sub_one_eq_mod x 2

theorem and_sixtyThree (x : Nat) : x &&& 63 = x % 64 := Nat.and_two_pow_sub_one_eq_mod x 6

theorem masked_bit (x k : Nat) : (if x &&& 2 ^ k ≠ 0 then 16 else 0) = 16 * (x / 2 ^ k % 2) := by
  rw [Nat.and_two_pow, Nat.testBit_eq_decide_div_mod_eq]
  rcases Nat.mod_two_eq_zero_or_one (x / 2 ^ k) with even | odd
  · simp [even]
  · simp [odd]

theorem getScaleMinK4_eq {blk : Nat → Nat} (bytes : ∀ i, blk i < 256) (j : Nat) :
    getScaleMinK4 j (fun i => blk (4 + i)) = (packedScale blk j, packedMin blk j) := by
  unfold getScaleMinK4 packedScale packedMin
  split
  · dsimp only
    rw [and_sixtyThree, and_sixtyThree, show 4 + (j + 4) = 8 + j by omega]
  · have small := bytes (4 + (j + 4))
    simp only [and_fifteen, Nat.shiftRight_eq_div_pow]
    rw [or_shiftLeft_four (Nat.mod_lt _ (by decide)), or_shiftLeft_four (by omega), show 4 + (j + 4) = 8 + j by omega,
      show 4 + (j - 4) = j by omega]

/-! ### The walks -/

/-- What a walk over `n` elements assigns, from position `yp` on. -/
def written (yp n : Nat) (value : Nat → R) : List (Nat × R) := (List.range n).map fun i => (yp + i, value i)

omit [Floats R] in
theorem written_add (yp n m : Nat) (value : Nat → R) :
    written yp (n + m) value = written yp n value ++ written (yp + n) m fun i => value (n + i) := by
  rw [written, List.range_add, List.map_append, List.map_map, written, written]
  congr 1
  apply List.map_congr_left
  intro i _
  show (yp + (n + i), value (n + i)) = _
  rw [Nat.add_assoc]

omit [Floats R] in
theorem written_congr {yp n : Nat} {value value' : Nat → R} (same : ∀ i < n, value i = value' i) :
    written yp n value = written yp n value' := by
  apply List.map_congr_left
  intro i member
  rw [same i (List.mem_range.mp member)]

omit [Floats R] in
theorem written_four (yp : Nat) (value : Nat → R) : written yp 128 value =
    written (yp + 32 * 0) 32 (fun l => value (32 * 0 + l)) ++ (written (yp + 32 * 1) 32 (fun l => value (32 * 1 + l)) ++
      (written (yp + 32 * 2) 32 (fun l => value (32 * 2 + l)) ++ written (yp + 32 * 3) 32 fun l => value (32 * 3 + l))) := by
  rw [show 128 = 32 + (32 + (32 + 32)) from rfl, written_add, written_add, written_add]
  simp only [Nat.mul_zero, Nat.add_zero, Nat.zero_add, Nat.mul_one, ← Nat.add_assoc]

section pairs
variable {σ : Type} {d dmin : R} {scales : Nat → Nat} {low high : σ → Nat → Nat} {next : σ → σ} {start : σ}
  {value : Nat → R} {n : Nat}
  (lows : ∀ t < n, ∀ l < 32, d * Floats.ofInt (getScaleMinK4 (2 * t) scales).1 * Floats.ofInt (low (next^[t] start) l) -
    dmin * Floats.ofInt (getScaleMinK4 (2 * t) scales).2 = value (64 * t + l))
  (highs : ∀ t < n, ∀ l < 32, d * Floats.ofInt (getScaleMinK4 (2 * t + 1) scales).1 *
    Floats.ofInt (high (next^[t] start) l) - dmin * Floats.ofInt (getScaleMinK4 (2 * t + 1) scales).2 =
      value (64 * t + (32 + l)))
include lows highs

/-- The turns of the loop from turn `t` on. -/
theorem pairLoop_from (turns t yp : Nat) (inside : t + turns ≤ n) :
    pairLoop d dmin scales low high next turns (2 * t) (next^[t] start) yp =
      (written yp (64 * turns) fun i => value (64 * t + i), yp + 64 * turns) := by
  induction turns generalizing t yp with
  | zero => rfl
  | succ turns ih =>
    have rest := ih (t + 1) (yp + 64) (by omega)
    rw [Function.iterate_succ_apply'] at rest
    unfold pairLoop
    dsimp only
    rw [show 2 * t + 2 = 2 * (t + 1) by omega, rest, show 64 * (turns + 1) = 32 + (32 + 64 * turns) by omega, written_add,
      written_add]
    refine Prod.ext ?_ (by dsimp only; omega)
    dsimp only
    congr 1
    · exact written_congr fun l below => lows t (by omega) l below
    · congr 1
      · exact written_congr fun l below => highs t (by omega) l below
      · rw [show yp + 32 + 32 = yp + 64 by omega]
        apply written_congr
        intro i _
        congr 1
        omega

/-- A walk that computes `value` in both sub-blocks of each pair writes it to every element in order. -/
theorem pairLoop_eq (yp : Nat) :
    pairLoop d dmin scales low high next n 0 start yp = (written yp (64 * n) value, yp + 64 * n) := by
  have walk := pairLoop_from lows highs n 0 yp (by omega)
  simp only [Nat.mul_zero, Nat.zero_add] at walk
  exact walk

end pairs

section superBlocks
variable {blk : Nat → Nat} (bytes : ∀ i, blk i < 256)
include bytes

theorem superBlockQ4K_eq (yp : Nat) :
    superBlockQ4K blk yp = (written yp 256 (kQuantValue blk R kGgmlQ4_K), yp + 256) := by
  have pointer : ∀ t, (fun q => q + 32)^[t] 16 = 16 + 32 * t := by
    intro t
    induction t with
    | zero => rfl
    | succ t ih =>
      rw [Function.iterate_succ_apply', ih]
      omega
  unfold superBlockQ4K
  apply pairLoop_eq
  · intro t below l inside
    rw [getScaleMinK4_eq bytes, pointer, and_fifteen, kQuantValue, if_neg (by decide), kQuant, if_pos rfl, halfByte,
      if_pos (by omega), show (64 * t + l) / 32 = 2 * t by omega, show (64 * t + l) / 64 = t by omega,
      show (64 * t + l) % 32 = l by omega]
  · intro t below l inside
    rw [getScaleMinK4_eq bytes, pointer, Nat.shiftRight_eq_div_pow, kQuantValue, if_neg (by decide), kQuant, if_pos rfl,
      halfByte, if_neg (by omega), show (64 * t + (32 + l)) / 32 = 2 * t + 1 by omega,
      show (64 * t + (32 + l)) / 64 = t by omega, show (64 * t + (32 + l)) % 32 = l by omega]

theorem superBlockQ5K_eq (yp : Nat) :
    superBlockQ5K blk yp = (written yp 256 (kQuantValue blk R kGgmlQ5_K), yp + 256) := by
  -- the masks are shifted out of their byte only after the last turn
  have cursor : ∀ t < 4, Q5Cursor.next^[t] ⟨48, 1, 2⟩ = ⟨48 + 32 * t, 2 ^ (2 * t), 2 ^ (2 * t + 1)⟩ := by
    intro t below
    obtain rfl | rfl | rfl | rfl : t = 0 ∨ t = 1 ∨ t = 2 ∨ t = 3 := by omega
    · rfl
    · rfl
    · rfl
    · rfl
  unfold superBlockQ5K
  apply pairLoop_eq
  · intro t below l inside
    rw [getScaleMinK4_eq bytes, cursor t below, and_fifteen, masked_bit, kQuantValue, if_neg (by decide), kQuant,
      if_neg (by decide), if_pos rfl, halfByte, if_pos (by omega), show (64 * t + l) / 32 = 2 * t by omega,
      show (64 * t + l) / 64 = t by omega, show (64 * t + l) % 32 = l by omega]
  · intro t below l inside
    rw [getScaleMinK4_eq bytes, cursor t below, Nat.shiftRight_eq_div_pow, masked_bit, kQuantValue, if_neg (by decide),
      kQuant, if_neg (by decide), if_pos rfl, halfByte, if_neg (by omega),
      show (64 * t + (32 + l)) / 32 = 2 * t + 1 by omega, show (64 * t + (32 + l)) / 64 = t by omega,
      show (64 * t + (32 + l)) % 32 = l by omega]

theorem halfByte_lt (j i : Nat) : halfByte j (blk i) < 16 := by
  have small := bytes i
  unfold halfByte
  split
  · exact Nat.mod_lt _ (by decide)
  · omega

/-- What the loop over the halves computes for element `32 * g + l` of half `t`. -/
theorem kQuantValue_q6 {g l : Nat} (t : Nat) (group : g < 4) (inside : l < 32) :
    halfToFloat (le16 blk 208) * Floats.ofInt (signed 1 (blk (192 + 8 * t + (l / 16 + 2 * g)))) *
        Floats.ofInt (signed 1 (halfByte (g / 2) (blk (64 * t + (l + 32 * (g % 2)))) |||
          ((blk (128 + 32 * t + l) / 4 ^ g % 4) <<< 4)) - 32) =
      kQuantValue blk R kGgmlQ6_K (128 * t + (32 * g + l)) := by
  have low := halfByte_lt bytes (g / 2) (64 * t + (l + 32 * (g % 2)))
  have high : blk (128 + 32 * t + l) / 4 ^ g % 4 < 4 := Nat.mod_lt _ (by decide)
  have plain : signed 1 (halfByte (g / 2) (blk (64 * t + (l + 32 * (g % 2)))) + 16 * (blk (128 + 32 * t + l) / 4 ^ g % 4)) =
      (halfByte (g / 2) (blk (64 * t + (l + 32 * (g % 2)))) + 16 * (blk (128 + 32 * t + l) / 4 ^ g % 4) : Nat) :=
    if_pos (by omega)
  have parity : halfByte ((128 * t + (32 * g + l)) / 64) = halfByte (g / 2) := by
    funext byte
    rw [halfByte, halfByte, show (128 * t + (32 * g + l)) / 64 % 2 = g / 2 % 2 by omega]
  rw [kQuantValue, if_pos rfl, kQuant, if_neg (by decide), if_neg (by decide), parity, or_shiftLeft_four low,
    plain, show (128 * t + (32 * g + l)) / 16 = 8 * t + (l / 16 + 2 * g) by omega,
    show (128 * t + (32 * g + l)) / 128 = t by omega, show (128 * t + (32 * g + l)) / 32 % 4 = g by omega,
    show (128 * t + (32 * g + l)) % 32 = l by omega,
    show 64 * t + (128 * t + (32 * g + l)) % 64 = 64 * t + (l + 32 * (g % 2)) by omega, Nat.add_assoc 192]

/-- The loop writes every element of its halves, though not in order. -/
theorem halfLoop_perm (turns t yp : Nat) :
    let r := halfLoop blk (halfToFloat (le16 blk 208)) turns (64 * t) (128 + 32 * t) (192 + 8 * t) yp
    r.1.Perm (written yp (128 * turns) fun i => kQuantValue blk R kGgmlQ6_K (128 * t + i)) ∧ r.2 = yp + 128 * turns := by
  induction turns generalizing t yp with
  | zero => exact ⟨.nil, rfl⟩
  | succ turns ih =>
    obtain ⟨rest, final⟩ := ih (t + 1) (yp + 128)
    unfold halfLoop
    dsimp only
    rw [show 64 * t + 64 = 64 * (t + 1) by omega, show 128 + 32 * t + 32 = 128 + 32 * (t + 1) by omega,
      show 192 + 8 * t + 8 = 192 + 8 * (t + 1) by omega, final]
    refine ⟨?_, by omega⟩
    rw [show 128 * (turns + 1) = 128 + 128 * turns by omega, written_add]
    refine List.Perm.append ?_ ?_
    · refine (flatMap_four_perm _ _ _ _ _).trans (List.Perm.of_eq ?_)
      rw [written_four]
      have run : ∀ g < 4, ∀ value : Nat → R,
          (∀ l < 32, value l = kQuantValue blk R kGgmlQ6_K (128 * t + (32 * g + l))) →
          ((List.range 32).map fun l => (yp + l + 32 * g, value l)) =
            written (yp + 32 * g) 32 fun l => kQuantValue blk R kGgmlQ6_K (128 * t + (32 * g + l)) := by
        intro g _ value each
        apply List.map_congr_left
        intro l member
        rw [each l (List.mem_range.mp member), Nat.add_right_comm]
      refine congrArg₂ _ (run 0 (by decide) _ fun l inside => ?_) (congrArg₂ _ (run 1 (by decide) _ fun l inside => ?_)
        (congrArg₂ _ (run 2 (by decide) _ fun l inside => ?_) (run 3 (by decide) _ fun l inside => ?_)))
      · rw [← kQuantValue_q6 bytes t (show 0 < 4 by decide) inside, and_fifteen, and_three, Nat.shiftRight_eq_div_pow]
        rfl
      · rw [← kQuantValue_q6 bytes t (show 1 < 4 by decide) inside, and_fifteen, and_three, Nat.shiftRight_eq_div_pow]
        rfl
      · rw [← kQuantValue_q6 bytes t (show 2 < 4 by decide) inside, and_three, Nat.shiftRight_eq_div_pow,
          Nat.shiftRight_eq_div_pow]
        rfl
      · rw [← kQuantValue_q6 bytes t (show 3 < 4 by decide) inside, and_three, Nat.shiftRight_eq_div_pow,
          Nat.shiftRight_eq_div_pow]
        rfl
    · have later : written (yp + 128) (128 * turns) (fun i => kQuantValue blk R kGgmlQ6_K (128 * t + (128 + i))) =
          written (yp + 128) (128 * turns) fun i => kQuantValue blk R kGgmlQ6_K (128 * (t + 1) + i) := by
        apply written_congr
        intro i _
        congr 1
        omega
      rw [later]
      exact rest

theorem superBlockQ6K_perm (yp : Nat) :
    let r : List (Nat × R) × Nat := superBlockQ6K blk yp
    r.1.Perm (written yp 256 (kQuantValue blk R kGgmlQ6_K)) ∧ r.2 = yp + 256 := by
  have walk := halfLoop_perm (R := R) bytes 2 0 yp
  simp only [Nat.mul_zero, Nat.zero_add, Nat.add_zero] at walk
  exact walk

end superBlocks

/-! ### A whole tensor -/

/-- The bytes from a super-block's start on. -/
def bytesFrom (raw : Bytes) (start i : Nat) : Nat := (raw.getD (start + i) 0).toNat

theorem bytesFrom_lt (raw : Bytes) (start i : Nat) : bytesFrom raw start i < 256 := UInt8.toNat_lt _

/-- The value of element `i` of a tensor, from the bytes of its own super-block. -/
def kTensorValue (R : Type) [Floats R] (type : Nat) (raw : Bytes) (i : Nat) : R :=
  kQuantValue (fun j => ((row (superBlockBytes type) raw (i / 256)).getD j 0).toNat) R type (i % 256)

/-- The closed formula reads the bytes of one super-block only. -/
theorem kQuantValue_congr {type i : Nat} {blk blk' : Nat → Nat} (kquant : isKQuant type) (inside : i < 256)
    (same : ∀ j < superBlockBytes type, blk j = blk' j) : kQuantValue blk R type i = kQuantValue blk' R type i := by
  rcases kquant with rfl | rfl | rfl
  · have same : ∀ j < 144, blk j = blk' j := same
    rw [kQuantValue, kQuantValue, if_neg (by decide), if_neg (by decide), kQuant, kQuant, if_pos rfl, if_pos rfl]
    simp (disch := omega) only [packedScale, packedMin, le16, same]
  · have same : ∀ j < 176, blk j = blk' j := same
    rw [kQuantValue, kQuantValue, if_neg (by decide), if_neg (by decide), kQuant, kQuant, if_neg (by decide), if_pos rfl,
      if_neg (by decide), if_pos rfl]
    simp (disch := omega) only [packedScale, packedMin, le16, same]
  · have same : ∀ j < 210, blk j = blk' j := same
    rw [kQuantValue, kQuantValue, if_pos rfl, if_pos rfl, kQuant, kQuant, if_neg (by decide), if_neg (by decide),
      if_neg (by decide), if_neg (by decide)]
    simp (disch := omega) only [le16, same]

/-- One turn: the elements of super-block `s`, from its own bytes. -/
theorem superBlock_perm {type : Nat} (kquant : isKQuant type) (raw : Bytes) (s yp : Nat) :
    let blk := bytesFrom raw (s * superBlockBytes type)
    let r : List (Nat × R) × Nat := if type = kGgmlQ4_K then superBlockQ4K blk yp
      else if type = kGgmlQ5_K then superBlockQ5K blk yp else superBlockQ6K blk yp
    r.1.Perm (written yp 256 fun i => kTensorValue R type raw (256 * s + i)) ∧ r.2 = yp + 256 := by
  have bytes := bytesFrom_lt raw (s * superBlockBytes type)
  have own : written yp 256 (kQuantValue (bytesFrom raw (s * superBlockBytes type)) R type) =
      written yp 256 fun i => kTensorValue R type raw (256 * s + i) := by
    apply written_congr
    intro i inside
    rw [kTensorValue, show (256 * s + i) / 256 = s by omega, show (256 * s + i) % 256 = i by omega]
    apply kQuantValue_congr kquant inside
    intro j within
    rw [bytesFrom, row, List.getD_eq_getElem?_getD, List.getD_eq_getElem?_getD, List.getElem?_take_of_lt within,
      List.getElem?_drop]
  rw [← own]
  rcases kquant with rfl | rfl | rfl
  · dsimp only
    rw [if_pos rfl, superBlockQ4K_eq bytes]
    exact ⟨.refl _, rfl⟩
  · dsimp only
    rw [if_neg (by decide), if_pos rfl, superBlockQ5K_eq bytes]
    exact ⟨.refl _, rfl⟩
  · dsimp only
    rw [if_neg (by decide), if_neg (by decide)]
    exact superBlockQ6K_perm bytes yp

theorem superBlockLoop_perm {type : Nat} (kquant : isKQuant type) (raw : Bytes) (turns s yp : Nat) :
    (superBlockLoop type raw turns s yp).Perm
      (written yp (256 * turns) fun i => kTensorValue R type raw (256 * s + i)) := by
  induction turns generalizing s yp with
  | zero => exact .nil
  | succ turns ih =>
    obtain ⟨here, final⟩ := superBlock_perm (R := R) kquant raw s yp
    have later : written (yp + 256) (256 * turns) (fun i => kTensorValue R type raw (256 * s + (256 + i))) =
        written (yp + 256) (256 * turns) fun i => kTensorValue R type raw (256 * (s + 1) + i) := by
      apply written_congr
      intro i _
      congr 1
      omega
    rw [show 256 * (turns + 1) = 256 + 256 * turns by omega, written_add, later]
    refine List.Perm.append here ?_
    rw [← final]
    exact ih (s + 1) _

/-- Every element of the output is assigned once, the closed formula's value on its own super-block's bytes, and that is
what the output holds. -/
theorem dequantizeKQuant_value {type pos m : Nat} {s : InputStream} {data : Bytes} (kquant : isKQuant type)
    (good : s.failed = false) (small : pos < 2 ^ 63) (size : data.length = m * superBlockBytes type)
    (found : data <+: s.bytes.drop pos) :
    (superBlockLoop type data m 0 0).Perm ((List.range (256 * m)).map fun i => (i, kTensorValue R type data i)) ∧
      Yields (dequantizeKQuant pos (256 * m : Nat) type) s fun (y : List R) _ =>
        y = (List.range (256 * m)).map (kTensorValue R type data) := by
  have once : (superBlockLoop type data m 0 0).Perm
      ((List.range (256 * m)).map fun i => (i, kTensorValue R type data i)) := by
    have walk := superBlockLoop_perm (R := R) kquant data m 0 0
    rw [written] at walk
    simp only [Nat.mul_zero, Nat.zero_add] at walk
    exact walk
  refine ⟨once, ?_⟩
  have jump : s.seekTo (signed 8 pos) = { s with pos := pos } := by
    rw [signed_of_lt small, InputStream.seekTo, if_neg (by rw [good]; decide), if_neg (by omega), Int.toNat_natCast]
  unfold dequantizeKQuant
  rw [vectorSize_of_nonneg (by omega), Int.toNat_natCast]
  refine Yields.bind (P := fun n t => n = 256 * m ∧ s = t) ⟨_, _, rfl, rfl, rfl⟩ ?_
  rintro _ _ ⟨rfl, rfl⟩
  refine Yields.bind (P := fun _ t => t = { s with pos := pos }) ⟨_, _, rfl, jump⟩ ?_
  rintro _ _ rfl
  rw [Nat.mul_div_cancel_left m (by decide)]
  have read : Reads (ε := GgufError) (readInto (List.replicate (m * superBlockBytes type) 0)) data data :=
    reads_into (by rw [List.length_replicate, size])
  have here : data <+: ({ s with pos := pos } : InputStream).rest := by
    rw [InputStream.rest_of_good (s := { s with pos := pos }) good]
    exact found
  apply (read.yields (s := { s with pos := pos }) good here).bind
  rintro _ _ ⟨rfl, rfl⟩
  apply yields_pure
  have fill : (List.replicate (256 * m) (Floats.ofInt 0 : R)).length = 256 * m := List.length_replicate
  rw [← fill] at once
  have stored := store_of_perm once
  rwa [fill] at stored

/-- A `Q4_K` super-block of scales and minimums that are all 1, byte `k` of its quants being `k`. -/
def ramp : Bytes := [0x00, 0x3C, 0x00, 0x3C] ++ List.replicate 4 1 ++ List.replicate 4 1 ++ List.replicate 4 0x11 ++
  (List.range 128).map UInt8.ofNat

theorem dequantizeKQuant_value_ramp :
    Yields (dequantizeKQuant 0 256 kGgmlQ4_K) { bytes := ramp, unset := fun _ => 0 } fun (y : List ℚ) _ =>
      y[70]? = some 5 := by
  have size : ramp.length = 1 * superBlockBytes kGgmlQ4_K := by simp [ramp, superBlockBytes]
  have run := (@dequantizeKQuant_value ℚ _ kGgmlQ4_K 0 1 { bytes := ramp, unset := fun _ => 0 } ramp (.inl rfl) rfl
    (by decide) size List.prefix_rfl).2
  apply run.mono
  rintro y _ rfl
  have value : kTensorValue ℚ kGgmlQ4_K ramp 70 = 5 := by decide +kernel
  rw [List.getElem?_map, List.getElem?_range (by decide), ← value]
  rfl

end Mlxforge
