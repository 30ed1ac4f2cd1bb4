import Mlxforge.Cache.RowHistory

/-! The batch-axis operations move whole rows: dummies are appended, `filter` selects. -/

namespace Mlxforge

variable {V : Type} [Slot V]

namespace BatchKVCache

theorem getD_append_left {α : Type} {xs ys : List α} {d : α} {i : Nat} (h : i < xs.length) :
    (xs ++ ys).getD i d = xs.getD i d := by
  simp [List.getD_eq_getElem?_getD, List.getElem?_append_left h]

theorem getD_append_right {α : Type} {xs ys : List α} {d : α} {i n : Nat} (h : xs.length = n) :
    (xs ++ ys).getD (n + i) d = ys.getD i d := by
  simp [List.getD_eq_getElem?_getD, List.getElem?_append_right, h]

/-! ### Dummy rows -/

theorem padRows_eq (extra : Nat) (comps : List (KvArray V)) :
    padRows extra comps = .ok (comps.map fun a => ⟨a.batch + extra, a.cap,
      fun b t => if b < a.batch then a.get b t else Slot.zero⟩) :=
  mapM_ok fun _ _ => KvArray.concatBatch_ok rfl

/-- The dummies change nothing a real row reads. -/
theorem padLayerRows_spec (extra : Nat) {l : Layer V} {B n m : Nat}
    (ready : l.Blank ∨ l.Written B n m) :
    ∃ l', padLayerRows extra l = .ok l' ∧
      (∀ b t, b < B → l'.entry b t = l.entry b t) ∧
      (l.Blank → l'.Blank) ∧ (l.Written B n m → l'.Written (B + extra) n m) := by
  have ok : padLayerRows extra l = .ok
      { keys := l.keys.map fun a => ⟨a.batch + extra, a.cap,
          fun b t => if b < a.batch then a.get b t else Slot.zero⟩
        values := l.values.map fun a => ⟨a.batch + extra, a.cap,
          fun b t => if b < a.batch then a.get b t else Slot.zero⟩
        convState := l.convState.map (· ++ List.replicate extra Slot.zero)
        recurState := l.recurState.map (· ++ List.replicate extra Slot.zero) } := by
    simp only [padLayerRows, padRows_eq, ok_bind]
    rfl
  refine ⟨_, ok, ?_, ?_, ?_⟩
  · intro b t inside
    rcases ready with ⟨noKeys, noValues⟩ | written
    · simp [Layer.entry, noKeys, noValues]
    · obtain ⟨_, _, keys⟩ := written.keysRoom
      obtain ⟨_, _, values⟩ := written.valuesRoom
      simp only [Layer.entry]
      rw [slotAt_map (d := b) (s := t) fun a ha => by simp [(keys a ha).1, inside],
        slotAt_map (d := b) (s := t) fun a ha => by simp [(values a ha).1, inside]]
  · rintro ⟨noKeys, noValues⟩
    exact ⟨by simp [noKeys], by simp [noValues]⟩
  · intro written
    obtain ⟨kc, kRoom, keys⟩ := written.keysRoom
    obtain ⟨vc, vRoom, values⟩ := written.valuesRoom
    exact ⟨by simp [written.keysCount], by simp [written.valuesCount],
      ⟨kc, kRoom, stored_map keys fun a batch cap => ⟨by simp [batch], cap⟩⟩,
      ⟨vc, vRoom, stored_map values fun a batch cap => ⟨by simp [batch], cap⟩⟩⟩

theorem padDummies_spec {c : BatchKVCache V} (wf : c.Wf) (extra : Nat) :
    ∃ c', c.padDummies extra = .ok c' ∧ c'.Wf ∧ (c.Stocked → c'.Stocked) ∧
      c'.rows = c.rows ++ List.replicate extra (RowHistory.dummy c.layers.length) ∧
      c'.layers.length = c.layers.length ∧ c'.qcfg = c.qcfg ∧ c'.idx = c.idx ∧
      c'.batch = c.batch + extra := by
  by_cases none : extra = 0
  · subst none
    exact ⟨c, by simp [padDummies, pure, Except.pure], wf, id, by simp, rfl, rfl, rfl, rfl⟩
  have ready : ∀ l ∈ c.layers, l.Blank ∨ l.Written c.batch c.len c.qcfg.components := by
    intro l member
    rcases wf.store with ⟨_, blank⟩ | stocked
    · exact Or.inl (blank l member)
    · exact Or.inr (stocked l member)
  obtain ⟨layers, ok, related⟩ := mapM_forall₂ fun l member => padLayerRows_spec extra (ready l member)
  let c' : BatchKVCache V := { c with
    layers
    offset := c.offset ++ List.replicate extra 0
    leftPadding := c.leftPadding ++ List.replicate extra c.idx
    batch := c.batch + extra }
  have stocked : c.Stocked → c'.Stocked := by
    intro stocked l' member
    obtain ⟨l, old, _, _, written⟩ := exists_of_forall₂_right related member
    exact written (stocked l old)
  refine ⟨c', ?_, ⟨wf.step, wf.idx, ?_, ?_, ?_, ?_⟩, stocked, ?_, related.length_eq.symm, rfl, rfl, rfl⟩
  · simp only [padDummies, if_neg none, ok, ok_bind]
    rfl
  · simp [c', wf.offsets]
  · simp [c', wf.paddings]
  · intro p member
    rcases List.mem_append.mp member with old | new
    · exact wf.padding p old
    · rw [List.eq_of_mem_replicate new]
      exact wf.idx
  · rcases wf.store with ⟨start, blank⟩ | full
    · refine Or.inl ⟨start, fun l' member => ?_⟩
      obtain ⟨l, old, _, stays, _⟩ := exists_of_forall₂_right related member
      exact stays (blank l old)
    · exact Or.inr (stocked full)
  · apply rows_ext
    · simp [c']
    · intro b h
      by_cases inside : b < c.batch
      · rw [List.getElem_append_left (by simpa using inside), rows_getElem]
        have pad : c'.padding b = c.padding b := getD_append_left (by rw [wf.paddings]; exact inside)
        apply row_congr
        · rw [pad]
        · exact getD_append_left (by rw [wf.offsets]; exact inside)
        · rw [pad]
          refine (related.imp fun l l' h => ?_).flip
          exact window_congr fun t _ _ => h.1 b t inside
      · rw [List.getElem_append_right (by simpa using inside), List.getElem_replicate]
        obtain ⟨i, rfl⟩ := Nat.exists_eq_add_of_le (Nat.not_lt.mp inside)
        have small : i < extra := by simp at h; omega
        have pad : c'.padding (c.batch + i) = c.idx :=
          (getD_append_right wf.paddings).trans (by simp [small])
        have off : c'.offset.getD (c.batch + i) 0 = 0 :=
          (getD_append_right wf.offsets).trans (by simp [small])
        simp only [row, RowHistory.dummy, pad, off]
        congr 1
        · simp [c']
        · rw [related.length_eq, ← List.map_const']
          apply List.map_congr_left
          intro l _
          exact window_self _ _

/-! ### Selecting rows -/

theorem gather_getD {α : Type} {fill : α} {xs : List α} {keep : List Nat} {i : Nat}
    (h : i < keep.length) : (gather fill xs keep).getD i fill = xs.getD keep[i] fill := by
  simp [gather, h]

theorem gather_mem {α : Type} {fill : α} {xs : List α} {keep : List Nat} {x : α}
    (valid : ∀ i ∈ keep, i < xs.length) (member : x ∈ gather fill xs keep) : x ∈ xs := by
  obtain ⟨i, hi, rfl⟩ := List.mem_map.mp member
  rw [← List.getElem_eq_getD (h := valid i hi)]
  exact List.getElem_mem _

theorem exists_min {xs : List Int} (some : xs ≠ []) :
    ∃ m, xs.min? = .some m ∧ m ∈ xs ∧ ∀ x ∈ xs, m ≤ x := by
  cases found : xs.min? with
  | none => exact absurd (List.min?_eq_none_iff.mp found) some
  | some m => exact ⟨m, rfl, List.min?_eq_some_iff.mp found⟩

theorem takeLayer_entry {keep : List Nat} {l : Layer V} {i t : Nat} (h : i < keep.length) :
    (takeLayer keep l).entry i t = l.entry keep[i] t := by
  simp only [Layer.entry, takeLayer]
  rw [slotAt_map (d := keep[i]) (s := t) fun a _ => by simp [KvArray.take, h],
    slotAt_map (d := keep[i]) (s := t) fun a _ => by simp [KvArray.take, h]]

theorem takeLayer_written {keep : List Nat} {l : Layer V} {B n m : Nat} (written : l.Written B n m) :
    (takeLayer keep l).Written keep.length n m := by
  obtain ⟨kc, kRoom, keys⟩ := written.keysRoom
  obtain ⟨vc, vRoom, values⟩ := written.valuesRoom
  exact ⟨by simp [takeLayer, written.keysCount], by simp [takeLayer, written.valuesCount],
    ⟨kc, kRoom, stored_map keys fun a _ cap => ⟨rfl, cap⟩⟩,
    ⟨vc, vRoom, stored_map values fun a _ cap => ⟨rfl, cap⟩⟩⟩

omit [Slot V] in
/-- Dropping `d ≤ n` written positions leaves room for the other `n - d`. -/
theorem shiftLayer_written {l : Layer V} {B n m d : Nat} (written : l.Written B n m) (le : d ≤ n) :
    (shiftLayer d l).Written B (n - d) m := by
  obtain ⟨kc, kRoom, keys⟩ := written.keysRoom
  obtain ⟨vc, vRoom, values⟩ := written.valuesRoom
  have cut : ∀ cap, n ≤ cap → ∀ a : KvArray V, a.batch = B → a.cap = cap →
      (a.sliceSeq d a.cap).batch = B ∧ (a.sliceSeq d a.cap).cap = cap - d := by
    intro cap room a batch capacity
    refine ⟨batch, ?_⟩
    simp only [KvArray.sliceSeq, clampIndex_natCast, capacity]
    omega
  exact ⟨by simp [shiftLayer, written.keysCount], by simp [shiftLayer, written.valuesCount],
    ⟨kc - d, by omega, stored_map keys (cut kc kRoom)⟩,
    ⟨vc - d, by omega, stored_map values (cut vc vRoom)⟩⟩

omit [Slot V] in
theorem shiftLayer_blank {l : Layer V} {m : Int} (blank : l.Blank) : (shiftLayer m l).Blank :=
  ⟨by simp [shiftLayer, blank.1], by simp [shiftLayer, blank.2]⟩

omit [Slot V] in
theorem shiftLayer_zero (l : Layer V) : shiftLayer 0 l = l := by
  have whole : ∀ a : KvArray V, a.sliceSeq 0 a.cap = a := fun a =>
    KvArray.sliceSeq_prefix a (Nat.le_refl a.cap)
  simp [shiftLayer, whole]

omit [Slot V] in
theorem shiftLayer_entry {l : Layer V} {B n m d b t : Nat} (ready : l.Blank ∨ l.Written B n m)
    (le : d ≤ n) : (shiftLayer d l).entry b t = l.entry b (t + d) := by
  rcases ready with ⟨noKeys, noValues⟩ | written
  · simp [Layer.entry, shiftLayer, noKeys, noValues]
  obtain ⟨kc, kRoom, keys⟩ := written.keysRoom
  obtain ⟨vc, vRoom, values⟩ := written.valuesRoom
  have reads : ∀ a : KvArray V, d ≤ a.cap → (a.sliceSeq d a.cap).get b t = a.get b (t + d) := by
    intro a room
    simp [KvArray.sliceSeq, Nat.min_eq_left room, Nat.add_comm]
  simp only [Layer.entry, shiftLayer]
  rw [slotAt_map fun a ha => reads a (by have := (keys a ha).2; omega),
    slotAt_map fun a ha => reads a (by have := (values a ha).2; omega)]

/-- `filter` as one formula: rows selected, then the least padding `d` cut off, even if 0. -/
theorem filter_eq {c : BatchKVCache V} {keep : List Nat} {d : Nat}
    (least : (gather 0 c.leftPadding keep).min? = some (d : Int)) :
    c.filter keep = { c with
      layers := (c.layers.map (takeLayer keep)).map (shiftLayer d)
      offset := gather 0 c.offset keep
      leftPadding := (gather 0 c.leftPadding keep).map (· - (d : Int))
      batch := keep.length
      idx := c.idx - d } := by
  simp only [filter, least, Option.getD_some]
  split
  · rfl
  · have zero : d = 0 := by omega
    have same : (shiftLayer 0 : Layer V → Layer V) = id := funext shiftLayer_zero
    subst zero
    simp [same]

/-- `filter` keeps the given rows, in the given order, whatever padding it trims. -/
theorem filter_spec {c : BatchKVCache V} {keep : List Nat} (wf : c.Wf) (some : keep ≠ [])
    (valid : ∀ i ∈ keep, i < c.batch) (padded : ∀ i ∈ keep, c.padding i ≤ c.idx) :
    (c.filter keep).Wf ∧ (c.Stocked → (c.filter keep).Stocked) ∧
      (c.filter keep).rows = keep.map c.row ∧
      (c.filter keep).layers.length = c.layers.length ∧ (c.filter keep).qcfg = c.qcfg ∧
      (c.filter keep).batch = keep.length := by
  let paddings := gather 0 c.leftPadding keep
  have nonneg : ∀ p ∈ paddings, 0 ≤ p := fun p member =>
    wf.padding p (gather_mem (fun i hi => wf.paddings ▸ valid i hi) member)
  have nonempty : paddings ≠ [] := by simpa [paddings, gather] using some
  obtain ⟨m, minimum, attained, least⟩ := exists_min nonempty
  obtain ⟨d, rfl⟩ := Int.eq_ofNat_of_zero_le (nonneg m attained)
  have idx := wf.idx
  have below : (d : Int) ≤ c.idx := by
    obtain ⟨i, hi, same⟩ := List.mem_map.mp attained
    rw [← same]
    exact padded i hi
  have le : d ≤ c.len := by simp only [BatchKVCache.len]; omega
  have ready : ∀ l ∈ c.layers, (takeLayer keep l).Blank ∨
      (takeLayer keep l).Written keep.length c.len c.qcfg.components := by
    intro l member
    rcases wf.store with ⟨_, blank⟩ | full
    · exact Or.inl ⟨by simp [takeLayer, (blank l member).1], by simp [takeLayer, (blank l member).2]⟩
    · exact Or.inr (takeLayer_written (full l member))
  have same := filter_eq minimum
  have len : (c.filter keep).len = c.len - d := by
    rw [same]; simp only [BatchKVCache.len]; omega
  have stocked : c.Stocked → (c.filter keep).Stocked := by
    intro full l' member
    rw [same] at member
    simp only [List.map_map] at member
    obtain ⟨l, old, rfl⟩ := List.mem_map.mp member
    rw [len, same]
    exact shiftLayer_written (takeLayer_written (full l old)) le
  refine ⟨⟨?_, ?_, ?_, ?_, ?_, ?_⟩, stocked, ?_, ?_, ?_, ?_⟩
  · rw [same]; exact wf.step
  · rw [same]; simp only; omega
  · rw [same]; simp [gather]
  · rw [same]; simp [gather]
  · rw [same]
    intro p member
    obtain ⟨q, hq, rfl⟩ := List.mem_map.mp member
    have := least q hq
    omega
  · rcases wf.store with ⟨zero, blank⟩ | full
    · refine Or.inl ⟨by rw [same]; simp only; omega, fun l' member => ?_⟩
      rw [same] at member
      simp only [List.map_map] at member
      obtain ⟨l, old, rfl⟩ := List.mem_map.mp member
      exact shiftLayer_blank
        ⟨by simp [takeLayer, (blank l old).1], by simp [takeLayer, (blank l old).2]⟩
    · exact Or.inr (stocked full)
  · apply rows_ext
    · rw [same]; simp
    · intro i h
      have inside : i < keep.length := by simpa using h
      have moved : (c.filter keep).padding i = c.padding keep[i] - d := by
        rw [same]
        simp [padding, gather, inside]
      have least' : (d : Int) ≤ c.padding keep[i] :=
        least _ (List.mem_map_of_mem (f := fun i => c.leftPadding.getD i 0) (List.getElem_mem inside))
      rw [List.getElem_map]
      apply row_congr
      · rw [moved, same]; simp only; omega
      · rw [same]; exact gather_getD inside
      · rw [moved, len, same]
        simp only [List.map_map]
        apply List.forall₂_map_left_iff.mpr
        apply List.forall₂_same.mpr
        intro l member
        simp only [Layer.view, Function.comp]
        rw [window_congr (g := fun t => l.entry keep[i] (t + d)) fun t _ _ => by
          rw [shiftLayer_entry (ready l member) le, takeLayer_entry inside], window_shift]
        congr 1 <;> omega
  · rw [same]; simp
  · rw [same]
  · rw [same]

end BatchKVCache

end Mlxforge
