import Mathlib
import Mlxforge.Json.Dump
import Mlxforge.Json.DumpText
import Mlxforge.Json.QuoteScan

/-!
The value a variable of the JSON library holds when the code writes an object out: its keys are kept in order. Its text
fits on one line, and is read back as the same value.
-/

namespace Mlxforge.Json

open Quoting (mem_insertField mem_storeFields)

mutual

def sorted : Json → Json
  | .arr items => .arr (sortedItems items)
  | .obj fields => .obj (storeFields (sortedFields fields))
  | j => j

def sortedItems : List Json → List Json
  | [] => []
  | j :: rest => sorted j :: sortedItems rest

def sortedFields : List (Bytes × Json) → List (Bytes × Json)
  | [] => []
  | (key, j) :: rest => (key, sorted j) :: sortedFields rest

end

theorem sortedItems_eq (items : List Json) : sortedItems items = items.map sorted := by
  induction items with
  | nil => rfl
  | cons j items ih => rw [sortedItems, ih, List.map_cons]

theorem sortedFields_eq (fields : List (Bytes × Json)) : sortedFields fields = fields.map fun f => (f.1, sorted f.2) := by
  induction fields with
  | nil => rfl
  | cons f fields ih => rw [sortedFields, ih, List.map_cons]

/-! ### The fields of an object -/

section
variable {key : Bytes} {v : Json} {fields : List (Bytes × Json)}

theorem insertField_pairwise (ordered : fields.Pairwise (·.1 < ·.1)) : (insertField key v fields).Pairwise (·.1 < ·.1) := by
  induction fields with
  | nil => exact List.pairwise_singleton _ _
  | cons f fields ih =>
    obtain ⟨k, x⟩ := f
    rw [List.pairwise_cons] at ordered
    rw [insertField]
    split
    next same =>
      subst same
      exact List.pairwise_cons.mpr ordered
    split
    next below =>
      refine List.pairwise_cons.mpr ⟨fun g hg => ?_, List.pairwise_cons.mpr ordered⟩
      rcases List.mem_cons.mp hg with rfl | hg
      · exact below
      · exact List.lt_trans below (ordered.1 g hg)
    next other notBelow =>
      have above : k < key := by
        rcases List.le_iff_lt_or_eq.mp (List.not_lt.mp notBelow) with above | same
        · exact above
        · exact absurd same.symm other
      refine List.pairwise_cons.mpr ⟨fun g hg => ?_, ih ordered.2⟩
      rcases mem_insertField hg with rfl | hg
      · exact above
      · exact ordered.1 g hg

theorem storeFields_pairwise (ms : List (Bytes × Json)) : (storeFields ms).Pairwise (·.1 < ·.1) := by
  have front (ms fields : List (Bytes × Json)) (ordered : fields.Pairwise (·.1 < ·.1)) :
      (ms.foldl (fun fields m => insertField m.1 m.2 fields) fields).Pairwise (·.1 < ·.1) := by
    induction ms generalizing fields with
    | nil => exact ordered
    | cons m ms ih => exact ih _ (insertField_pairwise ordered)
  exact front ms [] .nil

theorem lookup_field (k : Bytes) (f : Bytes × Json) :
    (f :: fields).lookup k = if k = f.1 then some f.2 else fields.lookup k := by
  by_cases same : k = f.1
  · have here : (k == f.1) = true := by simpa using same
    rw [List.lookup_cons, here, if_pos same]
  · have other : (k == f.1) = false := by simpa using same
    rw [List.lookup_cons, other, if_neg same]

theorem lookup_insertField (k : Bytes) :
    (insertField key v fields).lookup k = if k = key then some v else fields.lookup k := by
  induction fields with
  | nil => rw [insertField, lookup_field]
  | cons f fields ih =>
    obtain ⟨k', x⟩ := f
    rw [insertField]
    split
    next here =>
      subst here
      rw [lookup_field, lookup_field]
      by_cases same : k = key <;> simp [same]
    split
    · rw [lookup_field]
    next other _ =>
      rw [lookup_field, lookup_field, ih]
      by_cases there : k = k'
      · simp [there, Ne.symm other]
      · simp [there]

/-- Distinct members are all found again. -/
theorem lookup_storeFields {ms : List (Bytes × Json)} (distinct : (ms.map (·.1)).Nodup) (k : Bytes) :
    (storeFields ms).lookup k = ms.lookup k := by
  have front (ms fields : List (Bytes × Json)) (distinct : (ms.map (·.1)).Nodup) :
      (ms.foldl (fun fields m => insertField m.1 m.2 fields) fields).lookup k =
        (ms.lookup k).or (fields.lookup k) := by
    induction ms generalizing fields with
    | nil => rfl
    | cons m ms ih =>
      rw [List.map_cons, List.nodup_cons] at distinct
      rw [List.foldl_cons, ih _ distinct.2, lookup_insertField, lookup_field]
      by_cases here : k = m.1
      · have later : ms.lookup k = none := by
          rw [List.lookup_eq_none_iff]
          intro f hf
          have other : f.1 ≠ m.1 := fun same => distinct.1 (same ▸ List.mem_map_of_mem hf)
          simpa [here] using other.symm
        rw [later, if_pos here, if_pos here]
        rfl
      · rw [if_neg here, if_neg here]
  rw [storeFields, front ms [] distinct]
  exact Option.or_none

end

/-! ### What a variable can hold -/

section
variable (float : Bytes → Option Rat)

/-- Its integers are 64 bits wide, and its other numbers can be read. -/
inductive Fits : Json → Prop where
  | null : Fits .null
  | bool (b : Bool) : Fits (.bool b)
  | int {i : Int} (h : InRange i) : Fits (.int i)
  | float {x : Rat} {t : Bytes} (h : float t = some x) : Fits (.float x)
  | str (s : Bytes) : Fits (.str s)
  | arr {items : List Json} (h : ∀ v ∈ items, Fits v) : Fits (.arr items)
  | obj {fields : List (Bytes × Json)} (h : ∀ f ∈ fields, Fits f.2) : Fits (.obj fields)

end

variable {float : Bytes → Option Rat} {num : Rat → Bytes} {j : Json} {t : Bytes}

theorem Fits.stored (h : Fits float j) : Stored float j.sorted := by
  induction h with
  | null => exact .null
  | bool b => exact .bool b
  | int h => exact .int h
  | float h => exact .float h
  | str s => exact .str s
  | arr _ ih =>
    rw [sorted, sortedItems_eq]
    refine .arr fun v hv => ?_
    obtain ⟨w, hw, rfl⟩ := List.mem_map.mp hv
    exact ih w hw
  | obj _ ih =>
    rw [sorted, sortedFields_eq]
    refine .obj (storeFields_pairwise _) fun f hf => ?_
    obtain ⟨g, hg, rfl⟩ := List.mem_map.mp (mem_storeFields hf)
    exact ih g hg

theorem cleanFields_iff (fields : List (Bytes × Json)) :
    cleanFields fields = true ↔ ∀ f ∈ fields, Utf8.check f.1 = true ∧ f.2.clean = true := by
  induction fields with
  | nil => simp [cleanFields]
  | cons f fields ih => simp [cleanFields, ih, and_assoc]

mutual

/-- Ordering the keys brings no other string in. -/
theorem clean_sorted (j : Json) (h : j.clean = true) : j.sorted.clean = true := by
  cases j with
  | null | bool | int | float | str => exact h
  | arr items =>
    rw [sorted, clean, cleanItems_eq]
    exact List.all_eq_true.mpr (cleanItems_sorted items h)
  | obj fields =>
    rw [sorted, clean, cleanFields_iff]
    exact fun f hf => cleanFields_sorted fields h f (mem_storeFields hf)

theorem cleanItems_sorted (items : List Json) (h : cleanItems items = true) : ∀ v ∈ sortedItems items, v.clean = true := by
  cases items with
  | nil => nofun
  | cons j items =>
    rw [cleanItems, Bool.and_eq_true] at h
    rw [sortedItems, List.forall_mem_cons]
    exact ⟨clean_sorted j h.1, cleanItems_sorted items h.2⟩

theorem cleanFields_sorted (fields : List (Bytes × Json)) (h : cleanFields fields = true) :
    ∀ f ∈ sortedFields fields, Utf8.check f.1 = true ∧ f.2.clean = true := by
  cases fields with
  | nil => nofun
  | cons f fields =>
    obtain ⟨key, j⟩ := f
    rw [cleanFields, Bool.and_eq_true, Bool.and_eq_true] at h
    rw [sortedFields, List.forall_mem_cons]
    exact ⟨⟨h.1.1, clean_sorted j h.1.2⟩, cleanFields_sorted fields h.2⟩

end

/-! ### The text of a value is one line -/

def Printable (t : Bytes) : Prop := ∀ b ∈ t, 0x20 ≤ b.toNat

instance (t : Bytes) : Decidable (Printable t) := List.decidableBAll (fun b : UInt8 => 0x20 ≤ b.toNat) t

theorem printable_escape (b : UInt8) : Printable (escape b) := by
  have all : ∀ n < 256, Printable (escape (UInt8.ofNat n)) := by decide +kernel
  rw [← UInt8.ofNat_toNat (x := b)]
  exact all b.toNat b.toNat_lt

theorem printable_dumpString {s t : Bytes} (h : dumpString s = .ok t) : Printable t := by
  unfold dumpString at h
  split at h
  · obtain rfl := Except.ok.inj h
    have inside : Printable (s.flatMap escape) := fun b hb => by
      obtain ⟨c, -, hb⟩ := List.mem_flatMap.mp hb
      exact printable_escape c b hb
    exact List.forall_mem_append.mpr ⟨List.forall_mem_cons.mpr ⟨by decide, inside⟩, List.forall_mem_singleton.mpr (by decide)⟩
  · cases h

theorem printable_number {t : Bytes} (h : isNumber t = true) : Printable t := by
  have all : ∀ n < 256, isNumberByte (UInt8.ofNat n) = true → 0x20 ≤ (UInt8.ofNat n).toNat := by decide +kernel
  intro b hb
  have here := all b.toNat b.toNat_lt
  rw [UInt8.ofNat_toNat] at here
  exact here (numberBytes h b hb)

theorem printable_list {texts : List Bytes} (h : ∀ t ∈ texts, Printable t) {a b : UInt8} (ha : 0x20 ≤ a.toNat)
    (hb : 0x20 ≤ b.toNat) : Printable (a :: (texts.intersperse [0x2C]).flatten ++ [b]) := by
  have inside : Printable (texts.intersperse [0x2C]).flatten := fun c hc => by
    obtain ⟨t, ht, hc⟩ := List.mem_flatten.mp hc
    rcases mem_intersperse ht with rfl | ht
    · rw [List.mem_singleton.mp hc]
      decide
    · exact h t ht c hc
  exact List.forall_mem_append.mpr ⟨List.forall_mem_cons.mpr ⟨ha, inside⟩, by simpa using hb⟩

mutual

theorem printable_dump (writes : WritesFloat num float) {j : Json} {t : Bytes} (stored : Stored float j)
    (h : dump num j = .ok t) : Printable t := by
  cases j with
  | null =>
    cases h
    decide
  | bool b =>
    cases h
    cases b <;> decide
  | int i =>
    cases h
    exact printable_number (intText i).1
  | float x =>
    cases h
    cases stored with
    | float read => exact printable_number ((isNumber_iff _).mpr (writes x _ read).1)
  | str s => exact printable_dumpString h
  | arr items =>
    obtain ⟨texts, ok, same⟩ := bind_ok h
    cases pure_ok same
    cases stored with
    | arr each => exact printable_list (printable_dumpItems writes each ok) (by decide) (by decide)
  | obj fields =>
    obtain ⟨texts, ok, same⟩ := bind_ok h
    cases pure_ok same
    cases stored with
    | obj keys each => exact printable_list (printable_dumpFields writes each ok) (by decide) (by decide)

theorem printable_dumpItems (writes : WritesFloat num float) {items : List Json} {texts : List Bytes}
    (stored : ∀ v ∈ items, Stored float v) (h : dumpItems num items = .ok texts) : ∀ t ∈ texts, Printable t := by
  cases items with
  | nil =>
    cases h
    nofun
  | cons v vs =>
    rw [List.forall_mem_cons] at stored
    obtain ⟨text, ok, h⟩ := bind_ok h
    obtain ⟨rest, oks, same⟩ := bind_ok h
    cases pure_ok same
    exact List.forall_mem_cons.mpr ⟨printable_dump writes stored.1 ok, printable_dumpItems writes stored.2 oks⟩

theorem printable_dumpFields (writes : WritesFloat num float) {fields : List (Bytes × Json)} {texts : List Bytes}
    (stored : ∀ f ∈ fields, Stored float f.2) (h : dumpFields num fields = .ok texts) : ∀ t ∈ texts, Printable t := by
  cases fields with
  | nil =>
    cases h
    nofun
  | cons f fs =>
    obtain ⟨key, v⟩ := f
    rw [List.forall_mem_cons] at stored
    obtain ⟨keyText, okKey, h⟩ := bind_ok h
    obtain ⟨text, ok, h⟩ := bind_ok h
    obtain ⟨rest, oks, same⟩ := bind_ok h
    cases pure_ok same
    have field : Printable (keyText ++ 0x3A :: text) := List.forall_mem_append.mpr
      ⟨printable_dumpString okKey, List.forall_mem_cons.mpr ⟨by decide, printable_dump writes stored.1 ok⟩⟩
    exact List.forall_mem_cons.mpr ⟨field, printable_dumpFields writes stored.2 oks⟩

end

end Mlxforge.Json
