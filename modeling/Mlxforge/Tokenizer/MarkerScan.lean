import Mlxforge.Lib.Markers
import Mlxforge.Tokenizer.AddedTokens

/-!
Texts with blocks of added tokens: what the scan makes of them has the same blocks, as long as no literal reaches from
the text around a block into it.
-/

namespace Mlxforge

namespace LiteralTable

/-- The markers are added tokens in angle brackets, with ids of their own. -/
structure Marks (table : LiteralTable) (encodePlain : Bytes → List Int) (m : Markers UInt8) (id : Marker → Int) : Prop where
  sorted : table.Sorted
  bracketed : ∀ k, (m k).head? = some 0x3C ∧ (m k).getLast? = some 0x3E
  first : 0x3C ∈ table.firstBytes
  listed : ∀ k, (m k, id k) ∈ table.literals
  own : ∀ p ∈ table.literals, ∀ k, p.1 = m k ↔ p.2 = id k
  some_text : ∀ p ∈ table.literals, p.1 ≠ []
  /-- No added token has an opening bracket behind its front, or a closing one before its end. -/
  opens : ∀ p ∈ table.literals, 0x3C ∉ p.1.tail
  closes : ∀ p ∈ table.literals, 0x3E ∉ p.1.dropLast
  plain : ∀ run, m.Free run → ∀ k, id k ∉ encodePlain run
  empty : encodePlain [] = []

namespace Marks

variable {table : LiteralTable} {encodePlain : Bytes → List Int} {m : Markers UInt8} {id : Marker → Int}
  (marks : table.Marks encodePlain m id)

include marks

theorem marker_ne_nil (k : Marker) : m k ≠ [] := by
  intro none
  have opening := (marks.bracketed k).1
  rw [none] at opening
  cases opening

theorem literalAt_marker (k : Marker) (rest : Bytes) : table.literalAt (m k ++ rest) = some (m k, id k) := by
  obtain ⟨opening, closing⟩ := marks.bracketed k
  have front : (m k ++ rest).head?.any table.firstBytes.contains = true := by
    rw [List.head?_append_of_ne_nil _ (marks.marker_ne_nil k), opening]
    simpa using marks.first
  unfold literalAt
  rw [if_pos front]
  cases found : table.literals.find? fun p => p.1.isPrefixOf (m k ++ rest) with
  | none =>
    have absent := List.find?_eq_none.mp found _ (marks.listed k)
    exact absurd (List.isPrefixOf_iff_prefix.mpr (List.prefix_append (m k) rest)) absent
  | some p =>
    have member := List.mem_of_find?_eq_some found
    have here : p.1 <+: m k ++ rest :=
      List.isPrefixOf_iff_prefix.mp (List.find?_some (p := fun p : Bytes × Int => p.1.isPrefixOf (m k ++ rest)) found)
    have longest := le_of_find? marks.sorted found (marks.listed k)
      (List.isPrefixOf_iff_prefix.mpr (List.prefix_append (m k) rest))
    obtain ⟨tail, whole⟩ := List.prefix_of_prefix_length_le (List.prefix_append (m k) rest) here longest
    have same : p.1 = m k := by
      rcases List.eq_nil_or_concat tail with rfl | ⟨tail, c, rfl⟩
      · rw [← whole, List.append_nil]
      · refine absurd ?_ (marks.closes p member)
        rw [← whole, List.concat_eq_append, ← List.append_assoc, List.dropLast_concat]
        exact List.mem_append_left _ (List.mem_of_getLast? closing)
    rw [← same, ← (marks.own p member k).mp same]

theorem scan_marker (run : Bytes) (k : Marker) (rest : Bytes) : table.scan encodePlain run (m k ++ rest) =
    (table.scan encodePlain [] rest).map fun ids => encodePlain run ++ id k :: ids := by
  have found := marks.literalAt_marker k rest
  obtain ⟨c, marker, spelled⟩ := List.exists_cons_of_ne_nil (marks.marker_ne_nil k)
  rw [spelled, List.cons_append] at found ⊢
  rw [scan_literal found (List.cons_ne_nil c marker), List.length_cons, List.drop_succ_cons, List.drop_left]

theorem scan_pads (n : Nat) (rest : Bytes) :
    table.scan encodePlain [] ((List.replicate n (m .pad)).flatten ++ rest) =
      (table.scan encodePlain [] rest).map fun ids => List.replicate n (id .pad) ++ ids := by
  induction n with
  | zero => simp
  | succ n ih =>
    rw [List.replicate_succ, List.flatten_cons, List.append_assoc, marks.scan_marker, ih, Option.map_map, marks.empty,
      List.replicate_succ]
    rfl

theorem scan_block (run : Bytes) (n : Nat) (rest : Bytes) : table.scan encodePlain run (m.block n ++ rest) =
    (table.scan encodePlain [] rest).map fun ids => encodePlain run ++ (Markers.items id).block n ++ ids := by
  rw [Markers.block, List.append_assoc, List.append_assoc, marks.scan_marker, marks.scan_pads, marks.scan_marker,
    Option.map_map, Option.map_map, marks.empty, Markers.block_items]
  congr 1
  funext ids
  simp

/-- A literal does not reach over an opening bracket. -/
theorem literal_within {c : UInt8} {text rest lit : Bytes} {i : Int}
    (found : table.literalAt (c :: (text ++ rest)) = some (lit, i)) (border : rest = [] ∨ rest.head? = some 0x3C) :
    lit <+: c :: text := by
  obtain ⟨front, member⟩ := literalAt_front found
  rcases Nat.lt_or_ge (c :: text).length lit.length with beyond | fits
  · exfalso
    obtain ⟨more, whole⟩ := List.prefix_of_prefix_length_le (List.prefix_append (c :: text) rest) front (Nat.le_of_lt beyond)
    have some_more : more ≠ [] := by
      intro none
      rw [none, List.append_nil] at whole
      rw [whole] at beyond
      exact Nat.lt_irrefl _ beyond
    have more_front : more <+: rest := by
      rw [← whole] at front
      exact (List.prefix_append_right_inj (c :: text)).mp front
    rcases border with rfl | opening
    · exact some_more (List.prefix_nil.mp more_front)
    · obtain ⟨tail, rfl⟩ := more_front
      rw [List.head?_append_of_ne_nil _ some_more] at opening
      refine marks.opens _ member ?_
      rw [← whole, List.cons_append, List.tail_cons]
      exact List.mem_append_right _ (List.mem_of_head? opening)
  · exact List.prefix_of_prefix_length_le front (List.prefix_append (c :: text) rest) fits

/-- Text without markers, up to its end or to an opening bracket: no id of a marker comes out. -/
theorem scan_free (run text rest : Bytes) (free : m.Free (run ++ text)) (border : rest = [] ∨ rest.head? = some 0x3C) :
    ∃ ids run', (Markers.items id).Free ids ∧ m.Free run' ∧
      table.scan encodePlain run (text ++ rest) = (table.scan encodePlain run' rest).map (ids ++ ·) := by
  induction length : text.length using Nat.strong_induction_on generalizing run text with
  | _ n ih =>
    match text with
    | [] => exact ⟨[], run, Markers.free_items_iff.mpr fun k => by simp, by simpa using free, by simp⟩
    | c :: text =>
      cases found : table.literalAt (c :: (text ++ rest)) with
      | none =>
        obtain ⟨ids, run', clean, plain, scanned⟩ := ih text.length (by simp at length; omega) (run ++ [c]) text
          (by simpa using free) rfl
        exact ⟨ids, run', clean, plain, by rw [List.cons_append, scan_byte found, scanned]⟩
      | some p =>
        obtain ⟨lit, i⟩ := p
        have member := (literalAt_front found).2
        have some_lit := marks.some_text _ member
        obtain ⟨later, whole⟩ := marks.literal_within found border
        have lit_free : ∀ k, i ≠ id k := by
          intro k same
          have marker := (marks.own _ member k).mpr same
          exact free k ⟨run, later, by rw [← marker, List.append_assoc, whole]⟩
        have run_free : m.Free run := fun k inside => free k (inside.trans (List.prefix_append _ _).isInfix)
        have later_free : m.Free ([] ++ later) := by
          intro k inside
          refine free k (inside.trans (List.IsSuffix.isInfix ⟨run ++ lit, ?_⟩))
          rw [List.append_assoc, List.nil_append, whole]
        have shorter : later.length < n := by
          have := congrArg List.length whole
          have := List.length_pos_of_ne_nil some_lit
          simp only [List.length_append] at *
          omega
        obtain ⟨ids, run', clean, plain, scanned⟩ := ih later.length shorter [] later later_free rfl
        refine ⟨encodePlain run ++ i :: ids, run', ?_, plain, ?_⟩
        · refine Markers.free_items_iff.mpr fun k inside => ?_
          rcases List.mem_append.mp inside with plainly | later
          · exact marks.plain run run_free k plainly
          rcases List.mem_cons.mp later with here | there
          · exact lit_free k here.symm
          · exact Markers.free_items_iff.mp clean k there
        · have cut : (c :: (text ++ rest)).drop lit.length = later ++ rest := by
            rw [← List.cons_append, ← whole, List.append_assoc, List.drop_left]
          rw [List.cons_append, scan_literal found some_lit, cut, scanned, Option.map_map]
          congr 1
          funext later
          simp

/-- The ids have the blocks of the text. -/
theorem scan_blocks {text : Bytes} {counts : List Nat} (blocks : m.Blocks text counts) :
    ∃ ids, table.scan encodePlain [] text = some ids ∧ (Markers.items id).Blocks ids counts := by
  induction blocks with
  | @free text free =>
    obtain ⟨ids, run, clean, plain, scanned⟩ := marks.scan_free [] text [] (by simpa using free) (.inl rfl)
    rw [List.append_nil, scan, Option.map_some] at scanned
    refine ⟨_, scanned, .free (clean.append ?_ Markers.apart_items)⟩
    exact Markers.free_items_iff.mpr (marks.plain run plain)
  | @block before after n counts free _ ih =>
    obtain ⟨rest, ended, later⟩ := ih
    have opening : (m.block n ++ after).head? = some 0x3C := by
      rw [Markers.block, List.append_assoc, List.append_assoc, List.head?_append_of_ne_nil _ (marks.marker_ne_nil .start)]
      exact (marks.bracketed .start).1
    obtain ⟨ids, run, clean, plain, scanned⟩ := marks.scan_free [] before (m.block n ++ after) (by simpa using free)
      (.inr opening)
    rw [marks.scan_block, ended, Option.map_some, Option.map_some] at scanned
    refine ⟨_, by rw [List.append_assoc, scanned], ?_⟩
    rw [← List.append_assoc, ← List.append_assoc]
    refine .block (clean.append ?_ Markers.apart_items) later
    exact Markers.free_items_iff.mpr (marks.plain run plain)

end Marks

end LiteralTable

/-! ### Plain text -/

namespace BpeTokenizer

variable {t : BpeTokenizer} {u : UnicodeTables}

/-- Merging regroups bytes, whatever is in the vocabulary. -/
theorem mergeLoop_regroups (parts : List Bytes) :
    ∃ merged : List Bytes, t.mergeLoop (parts.map image) = merged.map image ∧ merged.flatten = parts.flatten := by
  generalize eq : parts.map image = symbols
  fun_induction mergeLoop t symbols generalizing parts with
  | case1 symbols none => exact ⟨parts, eq.symm, rfl⟩
  | case2 symbols rank a b found ih =>
    subst eq
    obtain none_some | ⟨adjacent, _⟩ := bestPair_spec found
    · cases none_some
    obtain ⟨x, _, rfl⟩ : ∃ x ∈ parts, image x = a := List.mem_map.mp (adjacent.subset (by simp))
    obtain ⟨y, _, rfl⟩ : ∃ y ∈ parts, image y = b := List.mem_map.mp (adjacent.subset (by simp))
    rw [← mergePair_flatten x y parts]
    exact ih (mergePair x y parts) (mergePair_image x y parts).symm

theorem pieceSymbols_regroup (piece : Bytes) :
    ∃ parts : List Bytes, t.pieceSymbols (image piece) = parts.map image ∧ parts.flatten = piece := by
  unfold pieceSymbols
  split
  · exact ⟨[piece], rfl, by simp⟩
  · have bytes : splitSymbols (image piece) = (piece.map fun b => [b]).map image := by
      rw [splitSymbols_image, List.map_map]
      exact List.map_congr_left fun b _ => by rw [Function.comp_apply, image_singleton]
    obtain ⟨merged, eq, flatten⟩ := t.mergeLoop_regroups (piece.map fun b => [b])
    exact ⟨merged, by rw [bytes, eq], by rw [flatten, ← List.flatMap_def, List.flatMap_singleton']⟩

/-- Every id of a plain run is looked up under the spelling of a part of the run. -/
theorem encodePlain_part {run : Bytes} {id : Int} (member : id ∈ t.encodePlain u run) :
    ∃ part, part <:+: run ∧ t.tokenToId.lookup (image part) = some id := by
  rw [encodePlain_eq, List.mem_filterMap] at member
  obtain ⟨sym, listed, found⟩ := member
  obtain ⟨piece, cut, inside⟩ := List.mem_flatMap.mp listed
  obtain ⟨parts, spelled, whole⟩ := t.pieceSymbols_regroup piece
  rw [spelled] at inside
  obtain ⟨part, here, rfl⟩ := List.mem_map.mp inside
  have run_eq : (t.pieces u (decodeUtf8 run)).flatten = run := by
    rw [pieces_flatten, decodeUtf8_bytes]
  have part_piece := List.infix_of_mem_flatten here
  have piece_run := List.infix_of_mem_flatten cut
  rw [whole] at part_piece
  rw [run_eq] at piece_run
  exact ⟨part, part_piece.trans piece_run, found⟩

/-- Plain text without a marker is not encoded to its id, when the vocabulary has the id under the marker only. -/
theorem plain_of_vocabulary {m : Markers UInt8} {id : Marker → Int} (spelled : ∀ k, image (m k) = m k)
    (own : ∀ k s, t.tokenToId.lookup s = some (id k) → s = m k) (run : Bytes) (free : m.Free run) (k : Marker) :
    id k ∉ t.encodePlain u run := by
  intro member
  obtain ⟨part, inside, found⟩ := encodePlain_part member
  have same := own k _ found
  rw [← spelled k] at same
  exact free k (image_injective same ▸ inside)

/-- Control tokens in angle brackets mark. -/
theorem gguf_marks {tokens merges : List Bytes} {tokenTypes : List Int} {pre : String} {m : Markers UInt8} {i : Marker → Nat}
    (distinct : tokens.Nodup) (bracketed : ∀ k, (m k).head? = some 0x3C ∧ (m k).getLast? = some 0x3E)
    (spelled : ∀ k, image (m k) = m k) (control : ∀ k, tokens[i k]? = some (m k) ∧ isAddedType tokenTypes (i k))
    (others : ∀ n lit, tokens[n]? = some lit → isAddedType tokenTypes n → lit ≠ [] ∧ 0x3C ∉ lit.tail ∧ 0x3E ∉ lit.dropLast) :
    (assembleGguf tokens merges tokenTypes pre).literalTable.Marks ((assembleGguf tokens merges tokenTypes pre).encodePlain u) m
      fun k => i k := by
  have special {p : Bytes × Int} (member : p ∈ (assembleGguf tokens merges tokenTypes pre).literalTable.literals) :
      0 ≤ p.2 ∧ tokens[p.2.toNat]? = some p.1 ∧ isAddedType tokenTypes p.2.toNat := by
    have listed : (p.1, p.2) ∈ (assembleGguf tokens merges tokenTypes pre).specialTokens := member
    exact mem_ggufSpecial.mp listed
  have index {n : Nat} {k : Marker} (token : tokens[n]? = some (m k)) : n = i k :=
    (List.getElem?_inj (List.getElem?_eq_some_iff.mp token).1 distinct).mp (token.trans (control k).1.symm)
  constructor
  case sorted => exact longestFirst_sorted _
  case bracketed => exact bracketed
  case first =>
    obtain ⟨token, isAdded⟩ := control .start
    refine List.mem_filterMap.mpr ⟨(m .start, i .start), List.mem_filter.mpr ⟨?_, isAdded⟩, (bracketed .start).1⟩
    exact List.mem_zipIdx_iff_getElem?.mpr token
  case listed =>
    intro k
    show (m k, (i k : Int)) ∈ (assembleGguf tokens merges tokenTypes pre).specialTokens
    rw [mem_ggufSpecial, Int.toNat_natCast]
    exact ⟨by omega, control k⟩
  case own =>
    intro p member k
    obtain ⟨nonneg, token, _⟩ := special member
    constructor
    · intro same
      rw [same] at token
      have := index token
      omega
    · intro same
      rw [same, Int.toNat_natCast, (control k).1] at token
      exact (Option.some.inj token).symm
  case some_text =>
    intro p member
    obtain ⟨_, token, isAdded⟩ := special member
    exact (others _ _ token isAdded).1
  case opens =>
    intro p member
    obtain ⟨_, token, isAdded⟩ := special member
    exact (others _ _ token isAdded).2.1
  case closes =>
    intro p member
    obtain ⟨_, token, isAdded⟩ := special member
    exact (others _ _ token isAdded).2.2
  case plain =>
    intro run free k
    have own (k : Marker) (s : Bytes)
        (found : (assembleGguf tokens merges tokenTypes pre).tokenToId.lookup s = some (i k : Int)) : s = m k := by
      have token := (assembleGguf_listed (.inl found)).2
      rw [Int.toNat_natCast, (control k).1] at token
      exact (Option.some.inj token).symm
    exact @plain_of_vocabulary _ u m (fun k => i k) spelled own run free k
  case empty => simp [encodePlain, pieces, decodeUtf8]

end BpeTokenizer

end Mlxforge
