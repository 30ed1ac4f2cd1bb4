import Mathlib.Tactic

/-!
The M-RoPE positions of a multimodal prompt. A prompt is cut into text tokens and groups of image tokens; the loop keeps
its base one past every position it has assigned.
-/

namespace Mlxforge

/-- Frames, height and width of an image in patches. -/
structure ImageGrid where
  t : Nat
  h : Nat
  w : Nat
  deriving DecidableEq, Repr

/-- The tokens of an image after merging. -/
def ImageGrid.tokens (merge : Nat) (g : ImageGrid) : Nat := g.t * (g.h / merge) * (g.w / merge)

/-- One column of the position table. -/
structure MropePosition where
  temporal : Nat
  height : Nat
  width : Nat
  deriving DecidableEq, Repr

namespace MropePosition

def even (n : Nat) : MropePosition := ⟨n, n, n⟩

def most (p : MropePosition) : Nat := max p.temporal (max p.height p.width)

def least (p : MropePosition) : Nat := min p.temporal (min p.height p.width)

end MropePosition

/-- The columns of one image, in (frame, row, column) order. -/
def imageColumns (base t gh gw : Nat) : List MropePosition :=
  (List.range t).flatMap fun f => (List.range gh).flatMap fun hh => (List.range gw).map fun ww =>
    ⟨base + f, base + hh, base + ww⟩

/-- The loop from the tokens `ids` and the grids that are left; `base` is the next position to assign. -/
def mropeLoop (imageTok : Int) (merge : Nat) : (ids : List Int) → (grids : List ImageGrid) → (base : Nat) → List MropePosition
  | [], _, _ => []
  | id :: rest, [], base => .even base :: mropeLoop imageTok merge rest [] (base + 1)
  | id :: rest, g :: grids, base =>
    if id = imageTok then
      let gh := g.h / merge
      let gw := g.w / merge
      imageColumns base g.t gh gw ++
        mropeLoop imageTok merge ((id :: rest).drop (g.t * gh * gw)) grids (base + max g.t (max gh gw))
    else .even base :: mropeLoop imageTok merge rest (g :: grids) (base + 1)
termination_by ids grids => ids.length + grids.length
decreasing_by
  all_goals simp only [List.length_cons, List.length_nil, List.length_drop]
  all_goals omega

/-- The packed (3, seq) array. -/
structure PositionIds where
  seq : Nat
  flat : List Nat

def mropePositionIds (ids : List Int) (grids : List ImageGrid) (merge : Nat) (imageTok : Int) : PositionIds :=
  let columns := mropeLoop imageTok merge ids grids 0
  ⟨ids.length, columns.map (·.temporal) ++ (columns.map (·.height) ++ columns.map (·.width))⟩

namespace PositionIds

/-- The entry of an axis at a token. -/
def get (a : PositionIds) (axis p : Nat) : Nat := a.flat.getD (axis * a.seq + p) 0

/-- The table by columns, one a token. -/
def columns (a : PositionIds) : List MropePosition :=
  (List.range a.seq).map fun p => ⟨a.get 0 p, a.get 1 p, a.get 2 p⟩

/-- `max(position_ids) + 1`; the maximum of nothing throws. -/
def decodeOffset (a : PositionIds) : Option Nat := a.flat.max?.map (· + 1)

/-- The array holds the columns it was packed from. -/
theorem columns_pack (columns : List MropePosition) :
    PositionIds.columns ⟨columns.length, columns.map (·.temporal) ++ (columns.map (·.height) ++ columns.map (·.width))⟩ =
      columns := by
  apply List.ext_getElem
  · simp [PositionIds.columns]
  · intro p _ inside
    simp only [PositionIds.columns, List.getElem_map, List.getElem_range, get, List.getD_eq_getElem?_getD]
    rw [List.getElem?_append_left (by simp; omega), List.getElem?_append_right (by simp), List.getElem?_append_left (by simp; omega),
      List.getElem?_append_right (by simp; omega), List.getElem?_append_right (by simp; omega)]
    simp only [List.length_map]
    rw [show 1 * columns.length + p - columns.length = p by omega,
      show 2 * columns.length + p - columns.length - columns.length = p by omega]
    simp [inside]

end PositionIds

/-! ### Prompts whose image tokens match the grids -/

/-- A text token or the tokens of one image. -/
inductive PromptSegment
  | text (id : Int)
  | image (grid : ImageGrid)

namespace PromptSegment

def ids (imageTok : Int) (merge : Nat) : PromptSegment → List Int
  | .text id => [id]
  | .image g => List.replicate (g.tokens merge) imageTok

def grid? : PromptSegment → Option ImageGrid
  | .text _ => none
  | .image g => some g

/-- An image has sides that are multiples of `merge`, and at least one token. -/
def Valid (imageTok : Int) (merge : Nat) : PromptSegment → Prop
  | .text id => id ≠ imageTok
  | .image g => merge ∣ g.h ∧ merge ∣ g.w ∧ 0 < g.tokens merge

end PromptSegment

/-- The prompt of a list of segments, its grids and whether every segment is valid. -/
def promptIds (imageTok : Int) (merge : Nat) (segments : List PromptSegment) : List Int :=
  segments.flatMap (·.ids imageTok merge)

def promptGrids (segments : List PromptSegment) : List ImageGrid := segments.filterMap (·.grid?)

def ValidPrompt (imageTok : Int) (merge : Nat) (segments : List PromptSegment) : Prop :=
  ∀ segment ∈ segments, segment.Valid imageTok merge

/-! ### The columns by segments -/

/-- The columns of one segment that starts at `base`. -/
def PromptSegment.columns (merge base : Nat) : PromptSegment → List MropePosition
  | .text _ => [.even base]
  | .image g => imageColumns base g.t (g.h / merge) (g.w / merge)

/-- The base after the segment. -/
def PromptSegment.next (merge base : Nat) : PromptSegment → Nat
  | .text _ => base + 1
  | .image g => base + max g.t (max (g.h / merge) (g.w / merge))

def place (merge : Nat) : (base : Nat) → List PromptSegment → List MropePosition
  | _, [] => []
  | base, segment :: rest => segment.columns merge base ++ place merge (segment.next merge base) rest

def endBase (merge : Nat) : (base : Nat) → List PromptSegment → Nat
  | base, [] => base
  | base, segment :: rest => endBase merge (segment.next merge base) rest

theorem place_append (merge base : Nat) (before after : List PromptSegment) :
    place merge base (before ++ after) = place merge base before ++ place merge (endBase merge base before) after := by
  induction before generalizing base with
  | nil => rfl
  | cons segment before ih => simp only [List.cons_append, place, endBase, ih, List.append_assoc]

theorem endBase_append (merge base : Nat) (before after : List PromptSegment) :
    endBase merge base (before ++ after) = endBase merge (endBase merge base before) after := by
  induction before generalizing base with
  | nil => rfl
  | cons segment before ih => exact ih _

theorem length_imageColumns (base t gh gw : Nat) : (imageColumns base t gh gw).length = t * gh * gw := by
  simp only [imageColumns, List.length_flatMap, List.length_map, List.length_range, List.map_const', List.sum_replicate,
    smul_eq_mul, Nat.mul_assoc]

theorem mem_imageColumns {base t gh gw : Nat} {p : MropePosition} :
    p ∈ imageColumns base t gh gw ↔
      ∃ frame < t, ∃ row < gh, ∃ col < gw, p = ⟨base + frame, base + row, base + col⟩ := by
  simp only [imageColumns, List.mem_flatMap, List.mem_map, List.mem_range, eq_comm (a := p)]

theorem nodup_imageColumns (base t gh gw : Nat) : (imageColumns base t gh gw).Nodup := by
  unfold imageColumns
  rw [List.nodup_flatMap]
  refine ⟨fun frame _ => ?_, ?_⟩
  · rw [List.nodup_flatMap]
    refine ⟨fun row _ => ?_, ?_⟩
    · refine List.Nodup.map ?_ List.nodup_range
      intro a b same
      simpa using same
    · refine List.nodup_range.imp ?_
      intro a b different p left right
      simp only [List.mem_map] at left right
      obtain ⟨_, _, rfl⟩ := left
      obtain ⟨_, _, same⟩ := right
      simp only [MropePosition.mk.injEq] at same
      omega
  · refine List.nodup_range.imp ?_
    intro a b different p left right
    simp only [List.mem_flatMap, List.mem_map] at left right
    obtain ⟨_, _, _, _, rfl⟩ := left
    obtain ⟨_, _, _, _, same⟩ := right
    simp only [MropePosition.mk.injEq] at same
    omega

theorem length_columns (imageTok : Int) {merge : Nat} (base : Nat) (segment : PromptSegment) :
    (segment.columns merge base).length = (segment.ids imageTok merge).length := by
  cases segment with
  | text => rfl
  | image g => simp [PromptSegment.columns, PromptSegment.ids, length_imageColumns, ImageGrid.tokens]

theorem length_place (imageTok : Int) {merge : Nat} (base : Nat) (segments : List PromptSegment) :
    (place merge base segments).length = (promptIds imageTok merge segments).length := by
  induction segments generalizing base with
  | nil => rfl
  | cons segment rest ih =>
    simp only [place, promptIds, List.flatMap_cons, List.length_append, length_columns imageTok]
    exact congrArg _ (ih _)

/-- The two cursors of the loop stay on the same segment. -/
theorem mropeLoop_prompt {imageTok : Int} {merge : Nat} {segments : List PromptSegment}
    (valid : ValidPrompt imageTok merge segments) (base : Nat) :
    mropeLoop imageTok merge (promptIds imageTok merge segments) (promptGrids segments) base = place merge base segments := by
  induction segments generalizing base with
  | nil => simp [promptIds, place, mropeLoop]
  | cons segment rest ih =>
    have here := valid segment List.mem_cons_self
    have ih := ih (fun s mem => valid s (List.mem_cons_of_mem _ mem))
    cases segment with
    | text id =>
      have other : id ≠ imageTok := here
      change mropeLoop imageTok merge (id :: promptIds imageTok merge rest) (promptGrids rest) base = _
      rw [place, ← ih]
      cases promptGrids rest with
      | nil => simp [mropeLoop, PromptSegment.columns, PromptSegment.next]
      | cons g grids => simp [mropeLoop, other, PromptSegment.columns, PromptSegment.next]
    | image g =>
      obtain ⟨_, _, some⟩ := here
      obtain ⟨n, count⟩ := Nat.exists_eq_succ_of_ne_zero (Nat.ne_of_gt some)
      change mropeLoop imageTok merge (List.replicate (g.tokens merge) imageTok ++ promptIds imageTok merge rest)
        (g :: promptGrids rest) base = _
      rw [place, ← ih, count, List.replicate_succ, List.cons_append, mropeLoop, if_pos rfl, ← List.cons_append,
        ← List.replicate_succ]
      have skip : g.t * (g.h / merge) * (g.w / merge) = (List.replicate (n + 1) imageTok).length := by
        rw [List.length_replicate, ← Nat.succ_eq_add_one, ← count]
        rfl
      simp only [skip, List.drop_left, PromptSegment.columns, PromptSegment.next]

/-! ### The base -/

/-- `b` is one past the greatest entry of `earlier`, or zero when there is none. -/
def IsNext (earlier : List MropePosition) (b : Nat) : Prop :=
  (∀ p ∈ earlier, p.most < b) ∧ (b = 0 ∨ ∃ p ∈ earlier, p.most + 1 = b)

/-- A segment's columns lie between its base and the next one, and reach the next one. -/
theorem PromptSegment.columns_within {imageTok : Int} {merge : Nat} {segment : PromptSegment} (base : Nat)
    (valid : segment.Valid imageTok merge) :
    (∀ p ∈ segment.columns merge base, base ≤ p.least ∧ p.most < segment.next merge base) ∧
      ∃ p ∈ segment.columns merge base, p.most + 1 = segment.next merge base := by
  cases segment with
  | text id =>
    simp only [columns, next, List.mem_singleton, forall_eq, exists_eq_left, MropePosition.most, MropePosition.least,
      MropePosition.even]
    omega
  | image g =>
    obtain ⟨_, _, some⟩ := valid
    have positive : 0 < g.t ∧ 0 < g.h / merge ∧ 0 < g.w / merge := by
      simp only [ImageGrid.tokens, Nat.pos_iff_ne_zero, Nat.mul_ne_zero_iff] at some ⊢
      tauto
    refine ⟨?_, ?_⟩
    · intro p mem
      obtain ⟨frame, _, row, _, col, _, rfl⟩ := mem_imageColumns.mp mem
      simp only [MropePosition.most, MropePosition.least, next]
      omega
    · refine ⟨⟨base + (g.t - 1), base + (g.h / merge - 1), base + (g.w / merge - 1)⟩,
        mem_imageColumns.mpr ⟨_, ?_, _, ?_, _, ?_, rfl⟩, ?_⟩
      · omega
      · omega
      · omega
      · simp only [MropePosition.most, next]
        omega

theorem le_endBase {imageTok : Int} {merge : Nat} {segments : List PromptSegment}
    (valid : ValidPrompt imageTok merge segments) (base : Nat) : base ≤ endBase merge base segments := by
  induction segments generalizing base with
  | nil => exact le_rfl
  | cons segment rest ih =>
    have step : base ≤ segment.next merge base := by
      cases segment <;> simp only [PromptSegment.next] <;> omega
    exact step.trans (ih (fun s mem => valid s (List.mem_cons_of_mem _ mem)) _)

/-- Every column of a run of segments lies between its base and its end. -/
theorem place_within {imageTok : Int} {merge : Nat} {segments : List PromptSegment}
    (valid : ValidPrompt imageTok merge segments) (base : Nat) :
    ∀ p ∈ place merge base segments, base ≤ p.least ∧ p.most < endBase merge base segments := by
  induction segments generalizing base with
  | nil => simp [place]
  | cons segment rest ih =>
    have here := PromptSegment.columns_within base (valid segment List.mem_cons_self)
    have later : ValidPrompt imageTok merge rest := fun s mem => valid s (List.mem_cons_of_mem _ mem)
    obtain ⟨top, topMem, topEq⟩ := here.2
    have step : base ≤ segment.next merge base := by
      have := here.1 top topMem
      have : top.least ≤ top.most := by simp only [MropePosition.least, MropePosition.most]; omega
      omega
    intro p mem
    rw [place, List.mem_append] at mem
    obtain mem | mem := mem
    · exact ⟨(here.1 p mem).1, (here.1 p mem).2.trans_le (le_endBase later _)⟩
    · have := ih later (segment.next merge base) p mem
      exact ⟨step.trans this.1, this.2⟩

/-- The base is one past every position assigned so far. -/
theorem isNext_endBase {imageTok : Int} {merge : Nat} {segments : List PromptSegment}
    (valid : ValidPrompt imageTok merge segments) : IsNext (place merge 0 segments) (endBase merge 0 segments) := by
  refine ⟨fun p mem => (place_within valid 0 p mem).2, ?_⟩
  obtain rfl | ⟨before, last, rfl⟩ := List.eq_nil_or_concat segments
  · exact .inl rfl
  · obtain ⟨p, mem, attained⟩ := (PromptSegment.columns_within (endBase merge 0 before)
      (valid last (by simp))).2
    refine .inr ⟨p, ?_, ?_⟩
    · simp [place_append, place, mem]
    · rw [List.concat_eq_append, endBase_append, attained]
      rfl

/-- Positions stay below the number of tokens, so the source's `int`s do not overflow. -/
theorem endBase_le_tokens {imageTok : Int} {merge : Nat} {segments : List PromptSegment}
    (valid : ValidPrompt imageTok merge segments) (base : Nat) :
    endBase merge base segments ≤ base + (promptIds imageTok merge segments).length := by
  induction segments generalizing base with
  | nil => exact Nat.le_add_right _ _
  | cons segment rest ih =>
    have step : segment.next merge base ≤ base + (segment.ids imageTok merge).length := by
      have here := valid segment List.mem_cons_self
      cases segment with
      | text id => exact le_rfl
      | image g =>
        obtain ⟨_, _, some⟩ := here
        simp only [PromptSegment.next, PromptSegment.ids, List.length_replicate, ImageGrid.tokens] at some ⊢
        have frames := Nat.le_of_dvd some ⟨g.h / merge * (g.w / merge), Nat.mul_assoc _ _ _⟩
        have height := Nat.le_of_dvd some (Dvd.intro_left (g.t * (g.w / merge)) (by ring) : g.h / merge ∣ _)
        have width := Nat.le_of_dvd some ⟨g.t * (g.h / merge), Nat.mul_comm _ _⟩
        omega
    have := ih (fun s mem => valid s (List.mem_cons_of_mem _ mem)) (segment.next merge base)
    simp only [endBase, promptIds, List.flatMap_cons, List.length_append] at this ⊢
    omega

/-! ### The table -/

/-- The columns of the table are the prompt's segments, placed one after the other. -/
theorem columns_mropePositionIds {imageTok : Int} {merge : Nat} {segments : List PromptSegment}
    (valid : ValidPrompt imageTok merge segments) :
    (mropePositionIds (promptIds imageTok merge segments) (promptGrids segments) merge imageTok).columns =
      place merge 0 segments := by
  rw [mropePositionIds, mropeLoop_prompt valid, ← length_place imageTok 0, PositionIds.columns_pack]

/-- What the positions of a prompt have to satisfy. -/
structure Positioned (imageTok : Int) (merge : Nat) (segments : List PromptSegment) (a : PositionIds) : Prop where
  tokens : a.seq = (promptIds imageTok merge segments).length
  full : a.flat.length = 3 * a.seq
  text : ∀ before id after, segments = before ++ .text id :: after →
    ∃ b, IsNext (a.columns.take (promptIds imageTok merge before).length) b ∧
      a.columns[(promptIds imageTok merge before).length]? = some (.even b)
  increasing : ∀ before id between id' after, segments = before ++ .text id :: between ++ .text id' :: after →
    a.get 0 (promptIds imageTok merge before).length <
      a.get 0 (promptIds imageTok merge (before ++ .text id :: between)).length
  image : ∀ before g after, segments = before ++ .image g :: after →
    ∃ b, IsNext (a.columns.take (promptIds imageTok merge before).length) b ∧
      ((a.columns.drop (promptIds imageTok merge before).length).take (g.tokens merge)).Nodup ∧
      ∀ p, p ∈ (a.columns.drop (promptIds imageTok merge before).length).take (g.tokens merge) ↔
        ∃ frame < g.t, ∃ row < g.h / merge, ∃ col < g.w / merge, p = ⟨b + frame, b + row, b + col⟩
  later : ∀ before g after, segments = before ++ .image g :: after →
    ∀ p ∈ (a.columns.drop (promptIds imageTok merge before).length).take (g.tokens merge),
      ∀ q ∈ a.columns.drop (promptIds imageTok merge (before ++ [.image g])).length, p.most < q.least

/-- The table splits where the prompt does. -/
theorem place_split (imageTok : Int) (merge : Nat) (before after : List PromptSegment) :
    (place merge 0 (before ++ after)).take (promptIds imageTok merge before).length = place merge 0 before ∧
      (place merge 0 (before ++ after)).drop (promptIds imageTok merge before).length =
        place merge (endBase merge 0 before) after := by
  rw [place_append, ← length_place imageTok 0 before]
  exact ⟨List.take_left, List.drop_left⟩

/-- The columns of the segment after `before`. -/
theorem place_segment (imageTok : Int) (merge : Nat) (before after : List PromptSegment) (segment : PromptSegment) :
    ((place merge 0 (before ++ segment :: after)).drop (promptIds imageTok merge before).length).take
        (segment.ids imageTok merge).length = segment.columns merge (endBase merge 0 before) := by
  rw [(place_split imageTok merge before (segment :: after)).2, place, ← length_columns imageTok (endBase merge 0 before), List.take_left]

theorem getElem?_place_text (imageTok : Int) (merge : Nat) (before after : List PromptSegment) (id : Int) :
    (place merge 0 (before ++ .text id :: after))[(promptIds imageTok merge before).length]? =
      some (.even (endBase merge 0 before)) := by
  have here := (place_split imageTok merge before (.text id :: after)).2
  rw [← Nat.add_zero (promptIds imageTok merge before).length, ← List.getElem?_drop, here]
  rfl

theorem PositionIds.get_of_columns {a : PositionIds} {n : Nat} {p : MropePosition} (column : a.columns[n]? = some p) :
    a.get 0 n = p.temporal := by
  obtain ⟨inside, value⟩ := List.getElem?_eq_some_iff.mp column
  rw [← value]
  simp [PositionIds.columns]

/-- The packed entries are those of the columns. -/
theorem PositionIds.decodeOffset_pack {columns : List MropePosition} {b : Nat} (past : IsNext columns b) (some : columns ≠ []) :
    PositionIds.decodeOffset ⟨columns.length,
      columns.map (·.temporal) ++ (columns.map (·.height) ++ columns.map (·.width))⟩ = .some b := by
  obtain ⟨below, top⟩ := past
  obtain ⟨first, firstMem⟩ := List.exists_mem_of_ne_nil _ some
  have positive := below first firstMem
  obtain zero | ⟨p, mem, attained⟩ := top
  · omega
  · have greatest : (columns.map (·.temporal) ++ (columns.map (·.height) ++ columns.map (·.width))).max? = .some (b - 1) := by
      rw [List.max?_eq_some_iff]
      simp only [List.mem_append, List.mem_map]
      refine ⟨?_, ?_⟩
      · simp only [MropePosition.most] at attained
        have : p.temporal = b - 1 ∨ p.height = b - 1 ∨ p.width = b - 1 := by omega
        obtain eq | eq | eq := this
        · exact .inl ⟨p, mem, eq⟩
        · exact .inr (.inl ⟨p, mem, eq⟩)
        · exact .inr (.inr ⟨p, mem, eq⟩)
      · rintro entry (⟨q, inside, rfl⟩ | ⟨q, inside, rfl⟩ | ⟨q, inside, rfl⟩)
        all_goals
          have := below q inside
          simp only [MropePosition.most] at this
          omega
    rw [decodeOffset, greatest, Option.map_some, Nat.sub_add_cancel (by omega)]

/-- Segments that are placed later are past everything placed before. -/
theorem place_later {imageTok : Int} {merge : Nat} {before after : List PromptSegment}
    (valid : ValidPrompt imageTok merge (before ++ after)) {p q : MropePosition} (placed : p ∈ place merge 0 before)
    (later : q ∈ place merge (endBase merge 0 before) after) : p.most < q.least :=
  (place_within (fun s mem => valid s (List.mem_append_left _ mem)) 0 p placed).2.trans_le
    (place_within (fun s mem => valid s (List.mem_append_right _ mem)) _ q later).1

theorem positioned_columns {imageTok : Int} {merge : Nat} {segments : List PromptSegment}
    (valid : ValidPrompt imageTok merge segments) {a : PositionIds} (table : a.columns = place merge 0 segments)
    (tokens : a.seq = (promptIds imageTok merge segments).length) (full : a.flat.length = 3 * a.seq) :
    Positioned imageTok merge segments a := by
  refine ⟨tokens, full, ?_, ?_, ?_, ?_⟩
  · intro before id after split
    subst split
    rw [table, (place_split imageTok merge before _).1]
    exact ⟨_, isNext_endBase (fun s mem => valid s (List.mem_append_left _ mem)), getElem?_place_text imageTok merge before after id⟩
  · intro before id between id' after split
    subst split
    have first := getElem?_place_text imageTok merge before (between ++ .text id' :: after) id
    have second := getElem?_place_text imageTok merge (before ++ .text id :: between) after id'
    rw [← List.cons_append, ← List.append_assoc, ← table] at first
    rw [← table] at second
    rw [PositionIds.get_of_columns first, PositionIds.get_of_columns second]
    have past := (isNext_endBase (fun s mem => valid s (List.mem_append_left _ mem))).1
      (.even (endBase merge 0 before)) (by simp [place_append, place, PromptSegment.columns])
    simpa [MropePosition.even, MropePosition.most] using past
  · intro before g after split
    subst split
    have part := place_segment imageTok merge before after (.image g)
    rw [PromptSegment.ids, List.length_replicate] at part
    rw [table, (place_split imageTok merge before _).1, part]
    exact ⟨_, isNext_endBase (fun s mem => valid s (List.mem_append_left _ mem)), nodup_imageColumns _ _ _ _,
      fun p => mem_imageColumns⟩
  · intro before g after split
    subst split
    have part := place_segment imageTok merge before after (.image g)
    rw [PromptSegment.ids, List.length_replicate] at part
    have rest := (place_split imageTok merge (before ++ [.image g]) after).2
    rw [List.append_assoc, List.singleton_append] at rest
    rw [table, part, rest]
    intro p mem q after
    have earlier : p ∈ place merge 0 (before ++ [.image g]) := by
      rw [place_append, List.mem_append]
      exact .inr (by simpa [place] using mem)
    exact place_later (by simpa using valid) earlier after

/-- The positions of a prompt, and the offset at which decoding continues. -/
theorem mropePositionIds_positioned {imageTok : Int} {merge : Nat} {segments : List PromptSegment}
    (valid : ValidPrompt imageTok merge segments) :
    Positioned imageTok merge segments
        (mropePositionIds (promptIds imageTok merge segments) (promptGrids segments) merge imageTok) ∧
      (segments ≠ [] → ∃ offset,
        (mropePositionIds (promptIds imageTok merge segments) (promptGrids segments) merge imageTok).decodeOffset =
            some offset ∧
          (∀ p ∈ (mropePositionIds (promptIds imageTok merge segments) (promptGrids segments) merge imageTok).columns,
            p.most < offset) ∧
          ∀ id, id ≠ imageTok →
            (mropePositionIds (promptIds imageTok merge segments ++ [id]) (promptGrids segments) merge imageTok).columns =
              (mropePositionIds (promptIds imageTok merge segments) (promptGrids segments) merge imageTok).columns ++
                [.even offset]) := by
  have table := columns_mropePositionIds valid
  have base := isNext_endBase valid
  refine ⟨positioned_columns valid table rfl ?_, fun present => ⟨endBase merge 0 segments, ?_, ?_, ?_⟩⟩
  · simp only [mropePositionIds, mropeLoop_prompt valid, List.length_append, List.length_map,
      length_place imageTok]
    omega
  · rw [mropePositionIds, mropeLoop_prompt valid, ← length_place imageTok 0]
    refine PositionIds.decodeOffset_pack base ?_
    obtain ⟨segment, rest, rfl⟩ := List.exists_cons_of_ne_nil present
    obtain ⟨_, p, mem, _⟩ := PromptSegment.columns_within 0 (valid segment List.mem_cons_self)
    exact List.ne_nil_of_mem (List.mem_append_left _ mem)
  · rw [table]
    exact base.1
  · intro id other
    have longer : ValidPrompt imageTok merge (segments ++ [.text id]) := by
      intro segment mem
      obtain mem | mem := List.mem_append.mp mem
      · exact valid segment mem
      · obtain rfl := List.mem_singleton.mp mem
        exact other
    have next := columns_mropePositionIds longer
    rw [place_append] at next
    rw [table]
    simpa [promptIds, promptGrids, PromptSegment.ids, PromptSegment.grid?, place, PromptSegment.columns] using next

/-- A text token, two adjacent images and a text token. -/
theorem mropePositionIds_positioned_adjacent :
    Positioned 9 2 [.text 5, .image ⟨1, 4, 2⟩, .image ⟨1, 2, 6⟩, .text 7]
      (mropePositionIds [5, 9, 9, 9, 9, 9, 7] [⟨1, 4, 2⟩, ⟨1, 2, 6⟩] 2 9) :=
  (@mropePositionIds_positioned 9 2 [.text 5, .image ⟨1, 4, 2⟩, .image ⟨1, 2, 6⟩, .text 7]
    (by simp [ValidPrompt, PromptSegment.Valid, ImageGrid.tokens])).1

end Mlxforge
