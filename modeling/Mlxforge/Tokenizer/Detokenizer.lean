import Mlxforge.Tokenizer.Tokenizer

/-!
The streaming detokenizer: each chunk is the text that has become complete since the last one, and the last one is
whatever is left.
-/

namespace Mlxforge

open Utf8 (Valid Tail)
open String (utf8EncodeChar)

/-- `10xxxxxx`, as the scan tests it. -/
def isContinuation (b : UInt8) : Bool := b &&& 0xC0 == 0x80

/-- Backwards from an index to the last byte that is not a continuation byte, or to the start. -/
def lastLead (s : Bytes) : Nat → Nat
  | 0 => 0
  | start + 1 => if isContinuation (s.getD (start + 1) 0) then lastLead s start else start + 1

/-- The length of a character by its lead byte. -/
def charNeed (lead : UInt8) : Nat := if lead < 0x80 then 1 else if lead < 0xE0 then 2 else if lead < 0xF0 then 3 else 4

/-- The length of the text without its last character when that is cut off. -/
def utf8CompleteLen (s : Bytes) : Nat :=
  if s.isEmpty then 0
  else
    let start := lastLead s (s.length - 1)
    if charNeed (s.getD start 0) ≤ s.length - start then s.length else start

theorem lastLead_le (s : Bytes) (start : Nat) : lastLead s start ≤ start := by
  induction start with
  | zero => exact Nat.le_refl 0
  | succ start ih =>
    unfold lastLead
    split
    · exact Nat.le_succ_of_le ih
    · exact Nat.le_refl _

theorem utf8CompleteLen_le (s : Bytes) : utf8CompleteLen s ≤ s.length := by
  unfold utf8CompleteLen
  split
  · exact Nat.zero_le _
  · have := lastLead_le s (s.length - 1)
    dsimp only
    split <;> omega

/-! ### On well-formed text the scan finds the last character -/

theorem isContinuation_iff (b : UInt8) : isContinuation b = true ↔ Tail b := by
  have all : ∀ n < 256, isContinuation (UInt8.ofNat n) = true ↔ Tail (UInt8.ofNat n) := by decide +kernel
  rw [← UInt8.ofNat_toNat (x := b)]
  exact all b.toNat b.toNat_lt

theorem getD_front (front : Bytes) (b : UInt8) (rest : Bytes) : (front ++ b :: rest).getD front.length 0 = b := by
  simp [List.getD_eq_getElem?_getD]

/-- The induction is on how far behind the lead byte the scan starts. -/
theorem lastLead_eq {front tails : Bytes} {lead : UInt8} (first : ¬Tail lead) (rest : ∀ b ∈ tails, Tail b) (k : Nat)
    (h : k ≤ tails.length) : lastLead (front ++ lead :: tails) (front.length + k) = front.length := by
  induction k with
  | zero =>
    have here := getD_front front lead tails
    cases hf : front.length with
    | zero => rfl
    | succ start =>
      rw [hf] at here
      rw [Nat.add_zero, lastLead, here, if_neg (mt (isContinuation_iff lead).mp first)]
  | succ k ih =>
    have tail : Tail ((front ++ lead :: tails).getD (front.length + k + 1) 0) := by
      rw [List.getD_eq_getElem?_getD, List.getElem?_append_right (by omega)]
      have : front.length + k + 1 - front.length = k + 1 := by omega
      rw [this, List.getElem?_cons_succ, List.getElem?_eq_getElem h]
      exact rest _ (List.getElem_mem h)
    rw [← Nat.add_assoc, lastLead, if_pos ((isContinuation_iff _).mpr tail)]
    exact ih (Nat.le_of_succ_le h)

theorem utf8CompleteLen_eq {front tails : Bytes} {lead : UInt8} (first : ¬Tail lead) (rest : ∀ b ∈ tails, Tail b) :
    utf8CompleteLen (front ++ lead :: tails) =
      if charNeed lead ≤ tails.length + 1 then front.length + (tails.length + 1) else front.length := by
  have nonempty : ¬(front ++ lead :: tails).isEmpty = true := by simp
  have last : (front ++ lead :: tails).length - 1 = front.length + tails.length := by simp
  have left : front.length + (tails.length + 1) - front.length = tails.length + 1 := by omega
  unfold utf8CompleteLen
  rw [if_neg nonempty, last, lastLead_eq first rest _ (Nat.le_refl _)]
  simp only [getD_front, List.length_append, List.length_cons, left]

/-- A character is a lead byte that says how many continuation bytes follow it. -/
theorem encodeChar_shape (c : Char) : ∃ lead tails, utf8EncodeChar c = lead :: tails ∧ ¬Tail lead ∧
    (∀ b ∈ tails, Tail b) ∧ charNeed lead = tails.length + 1 := by
  have need (a : UInt8) : charNeed a =
      if a.toNat < 0x80 then 1 else if a.toNat < 0xE0 then 2 else if a.toNat < 0xF0 then 3 else 4 := rfl
  obtain ⟨a, eq, ha⟩ | ⟨a, b, eq, ha, hb⟩ | ⟨a, b, d, eq, ha, hb, hd⟩ | ⟨a, b, d, e, eq, ha, hb, hd, he⟩ :=
    Utf8.encodeChar_cases c
  · refine ⟨a, [], eq, by unfold Tail; omega, by simp, ?_⟩
    rw [need, if_pos ha, List.length_nil]
  · refine ⟨a, [b], eq, by unfold Tail; omega, by simp [hb], ?_⟩
    rw [need, if_neg (by omega), if_pos (by omega), List.length_singleton]
  · refine ⟨a, [b, d], eq, by unfold Tail; omega, by simp [hb.1, hd], ?_⟩
    rw [need, if_neg (by omega), if_neg (by omega), if_pos (by omega)]
    rfl
  · refine ⟨a, [b, d, e], eq, by unfold Tail; omega, by simp [hb.1, hd, he], ?_⟩
    rw [need, if_neg (by omega), if_neg (by omega), if_neg (by omega)]
    rfl

theorem utf8CompleteLen_valid {s : Bytes} (h : Valid s) : utf8CompleteLen s = s.length := by
  obtain ⟨cs, rfl⟩ := h
  rcases List.eq_nil_or_concat' cs with rfl | ⟨ds, c, rfl⟩
  · rfl
  · obtain ⟨lead, tails, eq, first, rest, need⟩ := encodeChar_shape c
    have last : Utf8.encode (ds ++ [c]) = Utf8.encode ds ++ lead :: tails := by simp [eq]
    rw [last, utf8CompleteLen_eq first rest, if_pos (Nat.le_of_eq need), List.length_append, List.length_cons]

/-- Cut anywhere, well-formed text is complete up to a place between two characters. -/
theorem take_utf8CompleteLen_valid {s t : Bytes} (h : Valid (s ++ t)) : Valid (s.take (utf8CompleteLen s)) := by
  obtain ⟨cs, h⟩ := h
  obtain ⟨ds, rfl⟩ | ⟨ds, c, r, a, rfl, split, begun, more⟩ := Utf8.cut_cases h
  · -- whole characters: the scan finds the last one whole
    rw [utf8CompleteLen_valid ⟨ds, rfl⟩, List.take_length]
    exact ⟨ds, rfl⟩
  · -- the scan finds the lead byte of the character that is cut off
    obtain ⟨lead, tails, eq, first, rest, need⟩ := encodeChar_shape c
    cases r with
    | nil => exact absurd rfl begun
    | cons lead' tails' =>
      obtain ⟨rfl, rfl⟩ := List.cons.inj (eq.symm.trans split)
      have short : 0 < a.length := List.length_pos_iff.mpr more
      rw [List.append_eq, List.length_append] at need
      rw [utf8CompleteLen_eq first fun b hb => rest b (List.mem_append_left a hb), if_neg (by omega), List.take_left']
      · exact ⟨ds, rfl⟩
      · rfl

/-- No character begins with another one. -/
theorem encodeChar_front {c d : Char} {rest : Bytes} (split : utf8EncodeChar c = utf8EncodeChar d ++ rest) : rest = [] := by
  obtain ⟨lead, tails, eq, -, -, need⟩ := encodeChar_shape c
  obtain ⟨lead', tails', eq', -, -, need'⟩ := encodeChar_shape d
  rw [eq, eq', List.cons_append] at split
  obtain ⟨rfl, same⟩ := List.cons.inj split
  have lengths := congrArg List.length same
  rw [List.length_append] at lengths
  apply List.eq_nil_of_length_eq_zero
  omega

/-- A place between two characters lies no further than the scan gets. -/
theorem le_utf8CompleteLen {s t q : Bytes} (h : Valid (s ++ t)) (front : q <+: s) (valid : Valid q) :
    q.length ≤ utf8CompleteLen s := by
  obtain ⟨cs, h⟩ := h
  obtain ⟨ds, rfl⟩ | ⟨ds, c, r, a, rfl, split, begun, more⟩ := Utf8.cut_cases h
  · rw [utf8CompleteLen_valid ⟨ds, rfl⟩]
    exact front.length_le
  · have complete : utf8CompleteLen (Utf8.encode ds ++ r) = (Utf8.encode ds).length := by
      obtain ⟨lead, tails, eq, first, rest, need⟩ := encodeChar_shape c
      cases r with
      | nil => exact absurd rfl begun
      | cons lead' tails' =>
        obtain ⟨rfl, rfl⟩ := List.cons.inj (eq.symm.trans split)
        have short : 0 < a.length := List.length_pos_iff.mpr more
        rw [List.append_eq, List.length_append] at need
        rw [utf8CompleteLen_eq first fun b hb => rest b (List.mem_append_left a hb), if_neg (by omega)]
    rw [complete]
    by_contra longer
    -- behind the whole characters the prefix would hold a character of its own
    obtain ⟨q', rfl⟩ := List.prefix_of_prefix_length_le (List.prefix_append _ r) front (by omega)
    obtain ⟨es, tail⟩ := valid.of_append ⟨ds, rfl⟩
    have inside : q' <+: r := (List.prefix_append_right_inj _).mp front
    cases es with
    | nil =>
      rw [tail, Utf8.encode_nil, List.append_nil] at longer
      exact longer le_rfl
    | cons e es =>
      obtain ⟨rest, rfl⟩ := inside
      rw [tail, Utf8.encode_cons, List.append_assoc, List.append_assoc] at split
      exact more (List.append_eq_nil_iff.mp (List.append_eq_nil_iff.mp (encodeChar_front split)).2).2

theorem le_lastLead {s : Bytes} {j k : Nat} (first : isContinuation (s.getD j 0) = false) (h : j ≤ k) :
    j ≤ lastLead s k := by
  induction k with
  | zero => exact h
  | succ k ih =>
    unfold lastLead
    split
    next tail =>
      have different : j ≠ k + 1 := by
        rintro rfl
        rw [first] at tail
        cases tail
      exact ih (by omega)
    · exact h

/-- An ASCII byte is never cut off. -/
theorem lt_utf8CompleteLen {front rest : Bytes} {b : UInt8} (small : b < 0x80) :
    front.length < utf8CompleteLen (front ++ b :: rest) := by
  have here := getD_front front b rest
  have first : isContinuation b = false := by
    have all : ∀ n < 128, isContinuation (UInt8.ofNat n) = false := by decide +kernel
    rw [← UInt8.ofNat_toNat (x := b)]
    exact all b.toNat (UInt8.lt_iff_toNat_lt.mp small)
  have reached : front.length ≤ lastLead (front ++ b :: rest) ((front ++ b :: rest).length - 1) :=
    le_lastLead (by rw [here]; exact first) (by simp)
  unfold utf8CompleteLen
  rw [if_neg (by simp)]
  dsimp only
  split
  · simp
  next short =>
    refine Nat.lt_of_le_of_ne reached fun same => short ?_
    rw [← same, here]
    simp [charNeed, small]

/-! ### The detokenizer -/

/-- What has been returned is a prefix of the text of the ids so far. -/
structure StreamingDetokenizer where
  tok : Tokenizer
  ids : List Int := []
  emitted : Nat := 0
  bound : emitted ≤ (tok.decode ids).length := by simp

namespace StreamingDetokenizer

def new (tok : Tokenizer) : StreamingDetokenizer := { tok }

@[simp] theorem new_tok (tok : Tokenizer) : (new tok).tok = tok := rfl

@[simp] theorem new_ids (tok : Tokenizer) : (new tok).ids = [] := rfl

@[simp] theorem new_emitted (tok : Tokenizer) : (new tok).emitted = 0 := rfl

variable (d : StreamingDetokenizer)

/-- The text of the ids so far, and what of it has been returned. -/
def full : Bytes := d.tok.decode d.ids

def returned : Bytes := d.full.take d.emitted

theorem decode_grows (tok : Tokenizer) (ids : List Int) (id : Int) :
    (tok.decode ids).length ≤ (tok.decode (ids ++ [id])).length := by
  rw [tok.decode_append, List.length_append]
  exact Nat.le_add_right _ _

def add (id : Int) : Bytes × StreamingDetokenizer :=
  let ids := d.ids ++ [id]
  let full := d.tok.decode ids
  let complete := utf8CompleteLen full
  if complete ≤ d.emitted then
    ([], { d with ids, bound := d.bound.trans (decode_grows d.tok d.ids id) })
  else
    ((full.drop d.emitted).take (complete - d.emitted),
      { d with ids, emitted := complete, bound := utf8CompleteLen_le full })

def finish : Bytes × StreamingDetokenizer :=
  let full := d.tok.decode d.ids
  (full.drop d.emitted, { d with emitted := full.length, bound := Nat.le_refl _ })

variable {d} {chunk : Bytes} {d' : StreamingDetokenizer} {id : Int}

theorem returned_of_length (h : d.emitted = d.full.length) : d.returned = d.full := by
  rw [returned, h, List.take_length]

/-- Returned text is never taken back: each chunk continues it. -/
theorem add_spec (h : d.add id = (chunk, d')) :
    d'.tok = d.tok ∧ d'.ids = d.ids ++ [id] ∧ d'.returned = d.returned ++ chunk := by
  have kept : (d.tok.decode (d.ids ++ [id])).take d.emitted = d.returned := by
    rw [d.tok.decode_append, List.take_append_of_le_length d.bound]
    rfl
  unfold add at h
  dsimp only at h
  split at h
  · obtain ⟨rfl, rfl⟩ := Prod.mk.inj h
    exact ⟨rfl, rfl, by rw [List.append_nil]; exact kept⟩
  next more =>
    obtain ⟨rfl, rfl⟩ := Prod.mk.inj h
    refine ⟨rfl, rfl, ?_⟩
    rw [← kept, ← List.take_add, Nat.add_sub_cancel' (Nat.le_of_not_le more)]
    rfl

theorem add_full (h : d.add id = (chunk, d')) : d'.full = d.full ++ d.tok.decode [id] := by
  obtain ⟨tok, ids, -⟩ := add_spec h
  rw [full, tok, ids, Tokenizer.decode_append]
  rfl

/-- A chunk of text that is well-formed in the end is whole characters. -/
theorem add_valid (h : d.add id = (chunk, d')) {later : Bytes} (whole : Valid (d'.full ++ later))
    (before : Valid d.returned) : Valid chunk ∧ Valid d'.returned := by
  have spec := (add_spec h).2.2
  unfold add at h
  dsimp only at h
  split at h
  · obtain ⟨rfl, rfl⟩ := Prod.mk.inj h
    rw [List.append_nil] at spec
    exact ⟨Utf8.valid_nil, spec ▸ before⟩
  · obtain ⟨rfl, rfl⟩ := Prod.mk.inj h
    have after := take_utf8CompleteLen_valid whole
    refine ⟨.of_append ?_ before, after⟩
    rw [← spec]
    exact after

theorem finish_spec (h : d.finish = (chunk, d')) :
    d'.full = d.full ∧ d'.tok = d.tok ∧ d'.returned = d.returned ++ chunk ∧ d'.returned = d'.full := by
  obtain ⟨rfl, rfl⟩ := Prod.mk.inj h
  have all := returned_of_length (d := { d with emitted := d.full.length, bound := Nat.le_refl _ }) rfl
  refine ⟨rfl, rfl, ?_, all⟩
  exact all.trans (List.take_append_drop _ _).symm

/-- Nothing complete is left behind. -/
theorem add_caught (h : d.add id = (chunk, d')) : utf8CompleteLen d'.full ≤ d'.emitted := by
  unfold add at h
  dsimp only at h
  split at h
  next enough =>
    obtain ⟨rfl, rfl⟩ := Prod.mk.inj h
    exact enough
  · obtain ⟨rfl, rfl⟩ := Prod.mk.inj h
    exact Nat.le_refl _

theorem returned_of_valid (caught : utf8CompleteLen d.full ≤ d.emitted) (whole : Valid d.full) : d.returned = d.full := by
  rw [utf8CompleteLen_valid whole] at caught
  exact returned_of_length (Nat.le_antisymm d.bound caught)

/-- Where the text is whole characters, a token without a chunk is one without text. -/
theorem add_nil_iff (h : d.add id = (chunk, d')) (caught : utf8CompleteLen d.full ≤ d.emitted) (whole : Valid d'.full) :
    chunk = [] ↔ d.tok.decode [id] = [] := by
  have full := add_full h
  have complete := utf8CompleteLen_valid whole
  have bound := d.bound
  constructor
  · rintro rfl
    have same : d'.returned = d.returned := by simpa using (add_spec h).2.2
    have short : d'.full.length ≤ d.full.length := by
      have caught' := add_caught h
      have lengths := congrArg List.length same
      simp only [returned, List.length_take] at lengths
      unfold StreamingDetokenizer.full at *
      omega
    rw [full, List.length_append] at short
    exact List.eq_nil_of_length_eq_zero (by omega)
  · intro silent
    have enough : utf8CompleteLen (d.tok.decode (d.ids ++ [id])) ≤ d.emitted := by
      rw [d.tok.decode_append, silent, List.append_nil]
      exact caught
    unfold add at h
    dsimp only at h
    rw [if_pos enough] at h
    exact (Prod.mk.inj h).1.symm

/-! ### A whole stream -/

/-- The chunks that `add` returns for a sequence of ids. -/
def addAll (d : StreamingDetokenizer) : List Int → List Bytes × StreamingDetokenizer
  | [] => ([], d)
  | id :: ids =>
    let (chunk, d) := d.add id
    let (chunks, d) := d.addAll ids
    (chunk :: chunks, d)

theorem addAll_cons (d : StreamingDetokenizer) (id : Int) (ids : List Int) : d.addAll (id :: ids) =
    ((d.add id).1 :: ((d.add id).2.addAll ids).1, ((d.add id).2.addAll ids).2) := rfl

theorem addAll_spec (d : StreamingDetokenizer) (ids : List Int) : (d.addAll ids).2.tok = d.tok ∧
    (d.addAll ids).2.ids = d.ids ++ ids ∧ (d.addAll ids).2.returned = d.returned ++ (d.addAll ids).1.flatten := by
  induction ids generalizing d with
  | nil => simp [addAll]
  | cons id ids ih =>
    obtain ⟨tok, fed, shown⟩ := add_spec (show d.add id = ((d.add id).1, (d.add id).2) from rfl)
    obtain ⟨tok', fed', shown'⟩ := ih (d.add id).2
    rw [addAll_cons]
    refine ⟨tok'.trans tok, ?_, ?_⟩
    · rw [fed', fed, List.append_assoc, List.singleton_append]
    · rw [shown', shown, List.append_assoc, List.flatten_cons]

theorem addAll_append (d : StreamingDetokenizer) (ids ids' : List Int) :
    (d.addAll (ids ++ ids')).1 = (d.addAll ids).1 ++ ((d.addAll ids).2.addAll ids').1 := by
  induction ids generalizing d with
  | nil => rfl
  | cons id ids ih =>
    rw [List.cons_append, addAll_cons, addAll_cons, ih (d.add id).2]
    rfl

theorem addAll_length (d : StreamingDetokenizer) (ids : List Int) : (d.addAll ids).1.length = ids.length := by
  induction ids generalizing d with
  | nil => rfl
  | cons id ids ih => rw [addAll_cons, List.length_cons, ih (d.add id).2, List.length_cons]

/-- What has been returned is all up to the scan's place. -/
def Caught (d : StreamingDetokenizer) : Prop := d.emitted = utf8CompleteLen d.full

theorem new_caught (tok : Tokenizer) : (new tok).Caught := by
  unfold Caught full
  rw [new_tok, new_ids, Tokenizer.decode_nil]
  rfl

/-- The scan never falls back on text that is well-formed in the end. -/
theorem Caught.add (caught : d.Caught) (h : d.add id = (chunk, d')) {later : Bytes} (whole : Valid (d'.full ++ later)) :
    d'.Caught := by
  have grown := add_full h
  have further : d.emitted ≤ utf8CompleteLen d'.full := by
    have before : Valid (d.full.take (utf8CompleteLen d.full)) := by
      apply take_utf8CompleteLen_valid (t := d.tok.decode [id] ++ later)
      rwa [← List.append_assoc, ← grown]
    have front : d.full.take (utf8CompleteLen d.full) <+: d'.full := by
      rw [grown]
      exact (List.take_prefix _ _).trans (List.prefix_append _ _)
    have reached := le_utf8CompleteLen whole front before
    rwa [List.length_take, min_eq_left (utf8CompleteLen_le _), ← caught] at reached
  unfold StreamingDetokenizer.add at h
  dsimp only at h
  split at h
  next enough =>
    obtain ⟨rfl, rfl⟩ := Prod.mk.inj h
    exact le_antisymm further enough
  · obtain ⟨rfl, rfl⟩ := Prod.mk.inj h
    rfl

theorem Caught.addAll (caught : d.Caught) (ids : List Int) {later : Bytes}
    (whole : Valid ((d.addAll ids).2.full ++ later)) : (d.addAll ids).2.Caught := by
  induction ids generalizing d with
  | nil => exact caught
  | cons id ids ih =>
    rw [addAll_cons] at whole ⊢
    have first : d.add id = ((d.add id).1, (d.add id).2) := rfl
    obtain ⟨tok, fed, -⟩ := addAll_spec (d.add id).2 ids
    have same : ((d.add id).2.addAll ids).2.full = (d.add id).2.full ++ (d.add id).2.tok.decode ids := by
      rw [full, tok, fed, Tokenizer.decode_append]
      rfl
    apply ih _ whole
    rw [same, List.append_assoc] at whole
    exact caught.add first whole

/-- `text` is the longest prefix of `full` that ends between two characters. -/
def LongestWhole (full text : Bytes) : Prop := text <+: full ∧ Valid text ∧ ∀ q, q <+: full → Valid q → q.length ≤ text.length

/-- The chunks and what `finish` returns are the decoded text; and where that is UTF-8, what has been returned after each
id is the longest prefix of the text so far that ends between two characters. -/
theorem stream_agrees (tok : Tokenizer) (ids : List Int) :
    ((new tok).addAll ids).1.flatten ++ ((new tok).addAll ids).2.finish.1 = tok.decode ids ∧
    ((new tok).addAll ids).1.length = ids.length ∧
    (Valid (tok.decode ids) → ∀ n, LongestWhole (tok.decode (ids.take n)) (((new tok).addAll ids).1.take n).flatten) := by
  have start (ids : List Int) : ((new tok).addAll ids).2.full = tok.decode ids ∧
      ((new tok).addAll ids).2.returned = ((new tok).addAll ids).1.flatten := by
    obtain ⟨same, fed, shown⟩ := addAll_spec (new tok) ids
    rw [full, same, fed, shown]
    simp [returned]
  refine ⟨?_, addAll_length _ _, fun valid n => ?_⟩
  · obtain ⟨whole, shown⟩ := start ids
    have last : ((new tok).addAll ids).2.finish = (((new tok).addAll ids).2.finish.1, ((new tok).addAll ids).2.finish.2) := rfl
    obtain ⟨same, -, continued, all⟩ := finish_spec last
    rw [← shown, ← continued, all, same, whole]
  · have front : (((new tok).addAll ids).1.take n) = ((new tok).addAll (ids.take n)).1 := by
      by_cases inside : n ≤ ids.length
      · conv_lhs => rw [← List.take_append_drop n ids, addAll_append]
        apply List.take_left'
        rw [addAll_length, List.length_take, min_eq_left inside]
      · rw [List.take_of_length_le (by rw [addAll_length]; omega), List.take_of_length_le (by omega)]
    obtain ⟨whole, shown⟩ := start (ids.take n)
    have rest : Valid (tok.decode (ids.take n) ++ tok.decode (ids.drop n)) := by
      rwa [← Tokenizer.decode_append, List.take_append_drop]
    have fits : Valid (((new tok).addAll (ids.take n)).2.full ++ tok.decode (ids.drop n)) := by rwa [whole]
    have caught := (new_caught tok).addAll (ids.take n) fits
    rw [front, ← shown, returned, caught, whole]
    refine ⟨List.take_prefix _ _, take_utf8CompleteLen_valid rest, fun q inside valid => ?_⟩
    rw [List.length_take, min_eq_left (utf8CompleteLen_le _)]
    exact le_utf8CompleteLen rest inside valid

end StreamingDetokenizer

end Mlxforge
