import Mlxforge.Cache.BatchKvCache
import Mlxforge.Lib.Window

/-!
What each storage operation does to the slots a row shows. `slotAt` reads one position of a
component vector; every operation is described by how it moves those reads.
-/

namespace Mlxforge

variable {V : Type}

/-- All components of a store share the batch size and the capacity. -/
def Stored (B cap : Nat) (comps : List (KvArray V)) : Prop :=
  ∀ a ∈ comps, a.batch = B ∧ a.cap = cap

/-- What the components hold for row `b` at position `t`. -/
def slotAt (comps : List (KvArray V)) (b t : Nat) : List V := comps.map fun a => a.get b t

@[simp] theorem slotAt_nil (b t : Nat) : slotAt ([] : List (KvArray V)) b t = [] := rfl

theorem stored_nil (B cap : Nat) : Stored B cap ([] : List (KvArray V)) := by simp [Stored]

theorem seqLen_stored {B cap : Nat} {comps : List (KvArray V)} (stored : Stored B cap comps)
    (some : comps ≠ []) : seqLen comps = cap := by
  cases comps with
  | nil => exact absurd rfl some
  | cons a as => exact (stored a (by simp)).2

theorem stored_map {B cap B' cap' : Nat} {f : KvArray V → KvArray V} {comps : List (KvArray V)}
    (stored : Stored B cap comps)
    (shape : ∀ a, a.batch = B → a.cap = cap → (f a).batch = B' ∧ (f a).cap = cap') :
    Stored B' cap' (comps.map f) := by
  intro a member
  obtain ⟨x, hx, rfl⟩ := List.mem_map.mp member
  exact shape x (stored x hx).1 (stored x hx).2

theorem slotAt_map {f : KvArray V → KvArray V} {comps : List (KvArray V)} {b t d s : Nat}
    (reads : ∀ a ∈ comps, (f a).get b t = a.get d s) :
    slotAt (comps.map f) b t = slotAt comps d s := by
  simp only [slotAt, List.map_map]
  exact List.map_congr_left fun a ha => reads a ha

section zip
variable {g : KvArray V → KvArray V → KvArray V} {as cs : List (KvArray V)}

theorem stored_zipWith {B cap : Nat}
    (shape : ∀ a ∈ as, ∀ c ∈ cs, (g a c).batch = B ∧ (g a c).cap = cap) :
    Stored B cap (List.zipWith g as cs) := by
  intro x member
  obtain ⟨i, _, rfl⟩ := List.mem_iff_getElem.mp member
  rw [List.getElem_zipWith]
  exact shape _ (List.getElem_mem _) _ (List.getElem_mem _)

theorem slotAt_zipWith_left {b t b' t' : Nat} (same : as.length = cs.length)
    (reads : ∀ a ∈ as, ∀ c ∈ cs, (g a c).get b t = a.get b' t') :
    slotAt (List.zipWith g as cs) b t = slotAt as b' t' := by
  induction as generalizing cs with
  | nil => simp [slotAt]
  | cons a as ih =>
    cases cs with
    | nil => simp at same
    | cons c cs =>
      have tail := @ih cs (by simpa using same)
        fun x hx y hy => reads x (by simp [hx]) y (by simp [hy])
      simp only [slotAt, List.zipWith_cons_cons, List.map_cons] at tail ⊢
      rw [reads a (by simp) c (by simp), tail]

theorem slotAt_zipWith_right {b t b' t' : Nat} (same : as.length = cs.length)
    (reads : ∀ a ∈ as, ∀ c ∈ cs, (g a c).get b t = c.get b' t') :
    slotAt (List.zipWith g as cs) b t = slotAt cs b' t' := by
  rw [List.zipWith_comm]
  exact slotAt_zipWith_left same.symm fun c hc a ha => reads a ha c hc

end zip

/-! ### Writing a chunk -/

section write
variable {B n L step : Nat} {store inp : List (KvArray V)}

/-- `store'` is `store` with `inp`'s `L` positions written behind the first `n`. -/
structure Appended (B n L : Nat) (store inp store' : List (KvArray V)) : Prop where
  count : store'.length = inp.length
  room : ∃ cap, n + L ≤ cap ∧ Stored B cap store'
  old : ∀ b t, t < n → slotAt store' b t = slotAt store b t
  new : ∀ b j, j < L → slotAt store' b (n + j) = slotAt inp b j

/-- The blocks a growth adds cover the chunk. -/
theorem chunk_le_added (step L : Nat) (positive : 0 < step) :
    L ≤ (step + L - 1) / step * step := by
  have split := Nat.div_add_mod (step + L - 1) step
  have small := Nat.mod_lt (step + L - 1) positive
  rw [Nat.mul_comm] at split
  omega

variable [Slot V]

theorem growComponent_ok (step add : Nat) {cur inp : KvArray V} {cap : Nat} (batch : cur.batch = inp.batch)
    (capacity : cur.cap = cap) (written : n ≤ cap) :
    ∃ base, n ≤ base ∧ growComponent step add n cur inp = .ok ⟨cur.batch, base + add,
      fun b t => if t < base then cur.get b t else Slot.zero⟩ ∧
      base = if (n : Int) % step ≠ 0 then n else cap := by
  by_cases whole : (n : Int) % step ≠ 0
  · refine ⟨n, Nat.le_refl n, ?_, by rw [if_pos whole]⟩
    have cut := KvArray.sliceSeq_prefix cur (n := n) (by omega)
    have fresh : cur.batch = (KvArray.zeros (V := V) inp.batch add).batch := batch
    simp only [growComponent, if_pos whole, cut, KvArray.concatSeq, if_pos fresh]
    simp [KvArray.zeros]
  · refine ⟨cap, written, ?_, by rw [if_neg whole]⟩
    have fresh : cur.batch = (KvArray.zeros (V := V) inp.batch add).batch := batch
    simp only [growComponent, if_neg whole, KvArray.concatSeq, if_pos fresh, capacity]
    simp [KvArray.zeros]

/-- A full store grows by whole blocks and keeps its first `n` positions. -/
theorem grow_spec (step add : Nat) {cap : Nat} (count : store.length = inp.length) (written : n ≤ cap)
    (stored : Stored B cap store) (chunk : Stored B L inp) :
    ∃ grown base, zipComponents (growComponent step add n) store inp = .ok grown ∧
      n ≤ base ∧ grown.length = inp.length ∧ Stored B (base + add) grown ∧
      ∀ b t, t < n → slotAt grown b t = slotAt store b t := by
  let base := if (n : Int) % step ≠ 0 then n else cap
  let g : KvArray V → KvArray V → KvArray V := fun cur _ =>
    ⟨cur.batch, base + add, fun b t => if t < base then cur.get b t else Slot.zero⟩
  have above : n ≤ base := by
    simp only [base]; split <;> omega
  have ok : ∀ a ∈ store, ∀ c ∈ inp, growComponent step add n a c = .ok (g a c) := by
    intro a ha c hc
    obtain ⟨base', _, grown, same⟩ := growComponent_ok (n := n) step add
      ((stored a ha).1.trans (chunk c hc).1.symm) (stored a ha).2 written
    rw [grown, same]
  refine ⟨List.zipWith g store inp, base, zipComponents_ok count ok, above, by simp [count], ?_, ?_⟩
  · exact stored_zipWith fun a ha _ _ => ⟨(stored a ha).1, rfl⟩
  · intro b t below
    apply slotAt_zipWith_left count
    intro a _ c _
    simp [g, show t < base by omega]

omit [Slot V] in
/-- The write loop, once the store has room. -/
theorem writeAll_spec {cap : Nat} (count : store.length = inp.length) (fits : n + L ≤ cap)
    (stored : Stored B cap store) (chunk : Stored B L inp) :
    ∃ written, zipComponents (fun cur a => cur.sliceUpdate a n (n + L : Int)) store inp =
        .ok written ∧ Appended B n L store inp written := by
  let g : KvArray V → KvArray V → KvArray V := fun cur a =>
    ⟨cur.batch, cur.cap, fun b t => if n ≤ t ∧ t < n + L then a.get b (t - n) else cur.get b t⟩
  have ok : ∀ cur ∈ store, ∀ a ∈ inp, cur.sliceUpdate a n (n + L : Int) = .ok (g cur a) := by
    intro cur hcur a ha
    have len := (chunk a ha).2
    have written := KvArray.sliceUpdate_ok cur a (n := n)
      ((chunk a ha).1.trans (stored cur hcur).1.symm) (by rw [len, (stored cur hcur).2]; exact fits)
    rw [len] at written
    exact written
  refine ⟨List.zipWith g store inp, zipComponents_ok count ok, ?_⟩
  constructor
  · simp [count]
  · exact ⟨cap, fits, stored_zipWith fun a ha _ _ => stored a ha⟩
  · intro b t below
    apply slotAt_zipWith_left count
    intro a _ c _
    simp [g, show ¬ n ≤ t by omega]
  · intro b j below
    apply slotAt_zipWith_right count
    intro a _ c _
    simp [g, below]

/-- `update_kv_components` never throws on a chunk of the store's shape, and appends it. -/
theorem updateKvComponents_spec (positive : 0 < step) (some : inp ≠ [])
    (cur : store = [] ∧ n = 0 ∨ store.length = inp.length ∧ ∃ cap, n ≤ cap ∧ Stored B cap store)
    (chunk : Stored B L inp) :
    ∃ store', updateKvComponents store inp n step =
        .ok (store', store'.map (KvArray.sliceSeq · 0 (n + L : Int))) ∧
      Appended B n L store inp store' := by
  have len := seqLen_stored chunk some
  have added := chunk_le_added step L positive
  rcases cur with ⟨rfl, rfl⟩ | ⟨count, cap, written, stored⟩
  · -- first write: the store starts as zero blocks
    let zeros := inp.map fun a => KvArray.zeros (V := V) a.batch ((step + L - 1) / step * step)
    have stored : Stored B ((step + L - 1) / step * step) zeros :=
      stored_map chunk fun a batch _ => ⟨batch, rfl⟩
    obtain ⟨result, ok, appended⟩ := writeAll_spec (n := 0) (L := L)
      (by simp [zeros]) (by omega) stored chunk
    refine ⟨result, ?_, ⟨appended.count, appended.room, by omega, appended.new⟩⟩
    simp only [updateKvComponents, len, if_true]
    rw [show ((0 : Nat) : Int) + (L : Int) = ((0 : Nat) + L : Int) from rfl]
    simp only [zeros] at ok
    simp only [pure_bind, ok]
    rfl
  · have nonempty : store ≠ [] := by
      intro empty
      rw [empty] at count
      exact some (List.length_eq_zero_iff.mp count.symm)
    have cap_eq := seqLen_stored stored nonempty
    by_cases full : (n : Int) + L > (cap : Int)
    · obtain ⟨grown, base, grow, above, grownCount, grownStored, kept⟩ :=
        grow_spec step ((step + L - 1) / step * step) count written stored chunk
      obtain ⟨result, ok, appended⟩ := writeAll_spec (n := n) (L := L) grownCount (by omega) grownStored chunk
      refine ⟨result, ?_, ⟨appended.count, appended.room, ?_, appended.new⟩⟩
      · simp only [updateKvComponents, len, if_neg nonempty, cap_eq, if_pos full, grow]
        simp only [bind, Except.bind, ok]
        rfl
      · intro b t below
        rw [appended.old b t below, kept b t below]
    · obtain ⟨result, ok, appended⟩ := writeAll_spec (n := n) (L := L) count (by omega) stored chunk
      refine ⟨result, ?_, appended⟩
      simp only [updateKvComponents, len, if_neg nonempty, cap_eq, if_neg full, pure_bind, ok]
      rfl

end write

end Mlxforge
