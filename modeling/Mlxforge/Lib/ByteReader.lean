import Mlxforge.Lib.Utf8

/-!
Little-endian integers, and readers of a byte string from its front. A reader is exact on an encoding when it reads it
whatever follows, and fails where it is cut short.
-/

namespace Mlxforge

/-- The `n` low bytes of an integer, little-endian, as they lie in memory. -/
def littleEndian : (n : Nat) → Int → List UInt8
  | 0, _ => []
  | n + 1, i => UInt8.ofNat (i % 256).toNat :: littleEndian n (i / 256)

def fromLittleEndian : Bytes → Nat
  | [] => 0
  | b :: bytes => b.toNat + 256 * fromLittleEndian bytes

@[simp] theorem littleEndian_length (n : Nat) (i : Int) : (littleEndian n i).length = n := by
  induction n generalizing i with
  | zero => rfl
  | succ n ih => rw [littleEndian, List.length_cons, ih]

theorem fromLittleEndian_lt (bytes : Bytes) : fromLittleEndian bytes < 256 ^ bytes.length := by
  induction bytes with
  | nil => decide
  | cons b bytes ih =>
    have low := b.toNat_lt
    rw [fromLittleEndian, List.length_cons, pow_succ]
    omega

theorem fromLittleEndian_append (low high : Bytes) :
    fromLittleEndian (low ++ high) = fromLittleEndian low + 256 ^ low.length * fromLittleEndian high := by
  induction low with
  | nil => simp [fromLittleEndian]
  | cons b low ih =>
    rw [List.cons_append, fromLittleEndian, fromLittleEndian, ih, List.length_cons, pow_succ]
    ring

@[simp] theorem fromLittleEndian_zeros (n : Nat) : fromLittleEndian (List.replicate n 0) = 0 := by
  induction n with
  | zero => rfl
  | succ n ih => rw [List.replicate_succ, fromLittleEndian, ih]; rfl

/-- What the front of an integer's bytes says of it. -/
theorem fromLittleEndian_mod_of_prefix {low bytes : Bytes} (front : low <+: bytes) :
    fromLittleEndian bytes % 256 ^ low.length = fromLittleEndian low := by
  obtain ⟨high, rfl⟩ := front
  rw [fromLittleEndian_append, Nat.add_mul_mod_self_left, Nat.mod_eq_of_lt (fromLittleEndian_lt low)]

theorem fromLittleEndian_littleEndian (n v : Nat) : fromLittleEndian (littleEndian n v) = v % 256 ^ n := by
  induction n generalizing v with
  | zero => simp [littleEndian, fromLittleEndian, Nat.mod_one]
  | succ n ih =>
    have low : ((v : Int) % 256).toNat = v % 256 := by omega
    have high : ((v : Int) / 256) = ((v / 256 : Nat) : Int) := by omega
    have byte : (UInt8.ofNat (v % 256)).toNat = v % 256 := UInt8.toNat_ofNat_of_lt' (Nat.mod_lt v (by decide))
    rw [littleEndian, fromLittleEndian, low, high, ih, byte, pow_succ, Nat.mul_comm (256 ^ n), Nat.mod_mul]

theorem littleEndian_fromLittleEndian (bytes : Bytes) :
    littleEndian bytes.length (fromLittleEndian bytes : Nat) = bytes := by
  induction bytes with
  | nil => rfl
  | cons b bytes ih =>
    have low : ((fromLittleEndian (b :: bytes) : Int) % 256).toNat = b.toNat := by
      have := b.toNat_lt
      rw [fromLittleEndian]
      omega
    have high : (fromLittleEndian (b :: bytes) : Int) / 256 = (fromLittleEndian bytes : Nat) := by
      have := b.toNat_lt
      rw [fromLittleEndian]
      omega
    rw [List.length_cons, littleEndian, low, high, ih, UInt8.ofNat_toNat]

/-- A reader of values from the front of a byte string. -/
abbrev ByteReader (α : Type) := StateT Bytes Option α

namespace ByteReader

variable {α β : Type}

/-- An unsigned integer of `n` bytes. -/
def le (n : Nat) : ByteReader Nat := fun bytes =>
  if bytes.length < n then none else some (fromLittleEndian (bytes.take n), bytes.drop n)

/-- The next `n` bytes. -/
def take (n : Nat) : ByteReader Bytes := fun bytes =>
  if bytes.length < n then none else some (bytes.take n, bytes.drop n)

def check (p : Prop) [Decidable p] : ByteReader Unit := fun bytes => if p then some ((), bytes) else none

def times (p : ByteReader α) : Nat → ByteReader (List α)
  | 0 => pure []
  | n + 1 => do
    let a ← p
    let as ← times p n
    return a :: as

/-- `p` reads `a` from `bytes` whatever follows, and nothing from a part of `bytes` that is cut short. -/
structure Exact (p : ByteReader α) (bytes : Bytes) (a : α) : Prop where
  reads : ∀ rest, p (bytes ++ rest) = some (a, rest)
  cut : ∀ part, part <+: bytes → part ≠ bytes → p part = none

theorem bind_of_some {p : ByteReader α} {q : α → ByteReader β} {bytes rest : Bytes} {a : α}
    (h : p bytes = some (a, rest)) : (p >>= q) bytes = q a rest := by
  change (p bytes).bind _ = _
  rw [h]
  rfl

theorem bind_of_none {p : ByteReader α} {q : α → ByteReader β} {bytes : Bytes} (h : p bytes = none) :
    (p >>= q) bytes = none := by
  change (p bytes).bind _ = _
  rw [h]
  rfl

theorem check_bind {p : Prop} [Decidable p] {q : Unit → ByteReader β} {bytes : Bytes} (holds : p) :
    (check p >>= q) bytes = q () bytes := bind_of_some (if_pos holds)

theorem check_bind_not {p : Prop} [Decidable p] {q : Unit → ByteReader β} {bytes : Bytes} (fails : ¬p) :
    (check p >>= q) bytes = none := bind_of_none (if_neg fails)

theorem bind_some {p : ByteReader α} {q : α → ByteReader β} {bytes rest : Bytes} {b : β}
    (h : (p >>= q) bytes = some (b, rest)) : ∃ a between, p bytes = some (a, between) ∧ q a between = some (b, rest) := by
  obtain ⟨⟨a, between⟩, first, second⟩ := Option.bind_eq_some_iff.mp h
  exact ⟨a, between, first, second⟩

theorem pure_some {a b : α} {bytes rest : Bytes} (h : (pure a : ByteReader α) bytes = some (b, rest)) :
    a = b ∧ bytes = rest := Prod.mk.inj (Option.some.inj h)

theorem le_some {n v : Nat} {bytes rest : Bytes} (h : le n bytes = some (v, rest)) :
    bytes = littleEndian n v ++ rest ∧ v < 256 ^ n := by
  unfold le at h
  split at h
  · cases h
  · rename_i enough
    obtain ⟨rfl, rfl⟩ := Prod.mk.inj (Option.some.inj h)
    have size : (bytes.take n).length = n := by rw [List.length_take]; omega
    have back := littleEndian_fromLittleEndian (bytes.take n)
    have bound := fromLittleEndian_lt (bytes.take n)
    rw [size] at back bound
    exact ⟨by rw [back, List.take_append_drop], bound⟩

theorem take_some {n : Nat} {bytes rest data : Bytes} (h : take n bytes = some (data, rest)) :
    bytes = data ++ rest ∧ data.length = n := by
  unfold take at h
  split at h
  · cases h
  · rename_i enough
    obtain ⟨rfl, rfl⟩ := Prod.mk.inj (Option.some.inj h)
    exact ⟨(List.take_append_drop n bytes).symm, by rw [List.length_take]; omega⟩

theorem check_some {p : Prop} [Decidable p] {u : Unit} {bytes rest : Bytes} (h : check p bytes = some (u, rest)) :
    p ∧ bytes = rest := by
  unfold check at h
  split at h
  · rename_i holds
    exact ⟨holds, (Prod.mk.inj (Option.some.inj h)).2⟩
  · cases h

theorem exact_pure (a : α) : Exact (pure a) [] a :=
  ⟨fun _ => rfl, fun _ before short => absurd (List.prefix_nil.mp before) short⟩

theorem exact_check {p : Prop} [Decidable p] (holds : p) : Exact (check p) [] () :=
  ⟨fun _ => if_pos holds, fun _ before short => absurd (List.prefix_nil.mp before) short⟩

theorem Exact.bind {p : ByteReader α} {q : α → ByteReader β} {bytes bytes' : Bytes} {a : α} {b : β}
    (first : Exact p bytes a) (second : Exact (q a) bytes' b) : Exact (p >>= q) (bytes ++ bytes') b where
  reads := by
    intro rest
    rw [List.append_assoc, bind_of_some (first.reads _), second.reads]
  cut := by
    intro part before short
    rcases List.prefix_or_prefix_of_prefix before (List.prefix_append bytes bytes') with inside | ⟨part', rfl⟩
    · by_cases whole : part = bytes
      · subst whole
        have missing : [] ≠ bytes' := fun none => short (by rw [← none, List.append_nil])
        have read := first.reads []
        rw [List.append_nil] at read
        rw [bind_of_some read, second.cut [] List.nil_prefix missing]
      · exact bind_of_none (first.cut part inside whole)
    · have before' : part' <+: bytes' := (List.prefix_append_right_inj bytes).mp before
      have short' : part' ≠ bytes' := fun same => short (by rw [same])
      rw [bind_of_some (first.reads _), second.cut part' before' short']

/-- A check that passes reads nothing. -/
theorem Exact.checked {p : Prop} [Decidable p] {q : Unit → ByteReader β} {bytes : Bytes} {b : β}
    (read : Exact (q ()) bytes b) (holds : p) : Exact (check p >>= q) bytes b := (exact_check holds).bind read

theorem Exact.bind_pure {p : ByteReader α} {f : α → β} {bytes : Bytes} {a : α} (read : Exact p bytes a) :
    Exact (p >>= fun a => pure (f a)) bytes (f a) := by
  have bound : Exact (p >>= fun a => pure (f a)) (bytes ++ []) (f a) := read.bind (exact_pure (f a))
  rwa [List.append_nil] at bound

/-- A prefix that is not the whole is shorter. -/
theorem cut_length {part bytes : Bytes} (before : part <+: bytes) (short : part ≠ bytes) : part.length < bytes.length :=
  Nat.lt_of_le_of_ne before.length_le fun same => short (before.eq_of_length same)

theorem exact_take (bytes : Bytes) : Exact (take bytes.length) bytes bytes where
  reads := by
    intro rest
    rw [take, if_neg (by rw [List.length_append]; omega), List.take_left', List.drop_left'] <;> rfl
  cut := fun part before short => if_pos (cut_length before short)

theorem exact_le {n v : Nat} (fits : v < 256 ^ n) : Exact (le n) (littleEndian n v) v where
  reads := by
    intro rest
    have size : (littleEndian n v).length = n := littleEndian_length n v
    rw [le, if_neg (by rw [List.length_append]; omega), List.take_left' size, List.drop_left' size,
      fromLittleEndian_littleEndian, Nat.mod_eq_of_lt fits]
  cut := by
    intro part before short
    have shorter := cut_length before short
    rw [littleEndian_length] at shorter
    exact if_pos shorter

theorem exact_times {p : ByteReader α} {encode : α → Bytes} {as : List α} (each : ∀ a ∈ as, Exact p (encode a) a) :
    Exact (times p as.length) (as.flatMap encode) as := by
  induction as with
  | nil => exact exact_pure []
  | cons a as ih =>
    have rest := ih fun b member => each b (List.mem_cons_of_mem _ member)
    exact (each a List.mem_cons_self).bind rest.bind_pure

/-- What `times` reads lies there in order. -/
theorem times_some {p : ByteReader α} {encode : α → Bytes} {P : α → Prop}
    (each : ∀ {bytes rest a}, p bytes = some (a, rest) → bytes = encode a ++ rest ∧ P a) {n : Nat} {bytes rest : Bytes}
    {as : List α} (h : times p n bytes = some (as, rest)) :
    bytes = as.flatMap encode ++ rest ∧ (∀ a ∈ as, P a) ∧ as.length = n := by
  induction n generalizing bytes as with
  | zero =>
    obtain ⟨rfl, rfl⟩ := pure_some h
    exact ⟨rfl, nofun, rfl⟩
  | succ n ih =>
    obtain ⟨a, between, first, h⟩ := bind_some h
    obtain ⟨as', between', second, h⟩ := bind_some h
    obtain ⟨rfl, rfl⟩ := pure_some h
    obtain ⟨rfl, holds⟩ := each first
    obtain ⟨rfl, all, count⟩ := ih second
    exact ⟨by rw [List.flatMap_cons, List.append_assoc], List.forall_mem_cons.mpr ⟨holds, all⟩, by rw [List.length_cons, count]⟩

end ByteReader

end Mlxforge
