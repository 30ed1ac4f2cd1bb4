import Mathlib

/-!
Server-sent events as bytes: a writer of one-line fields, and the reader of any event stream, which works byte by byte
and so does not see how the bytes were cut.
-/

namespace Mlxforge.EventStream

/-- An event as the reader dispatches it; the empty name stands for the default one. -/
structure Event where
  name : List UInt8
  data : List UInt8
  deriving DecidableEq, Repr

/-! ### Reading -/

structure Reader where
  line : List UInt8 := []
  /-- The last line ended with CR, so that an LF right behind it ends no other line. -/
  afterCr : Bool := false
  name : List UInt8 := []
  data : List (List UInt8) := []
  deriving DecidableEq, Repr

def lf : UInt8 := 0x0A
def cr : UInt8 := 0x0D
def colon : UInt8 := 0x3A
def space : UInt8 := 0x20

def eventField : List UInt8 := [0x65, 0x76, 0x65, 0x6E, 0x74]
def dataField : List UInt8 := [0x64, 0x61, 0x74, 0x61]

/-- The value of a field begins behind the colon and at most one space. -/
def fieldValue : List UInt8 → List UInt8
  | c :: b :: rest => if c = colon then (if b = space then rest else b :: rest) else c :: b :: rest
  | [c] => if c = colon then [] else [c]
  | [] => []

namespace Reader

/-- A line that is not empty: a comment has the empty field name, and other fields are passed over. -/
def field (r : Reader) (line : List UInt8) : Reader :=
  let name := line.takeWhile (· != colon)
  let value := fieldValue (line.dropWhile (· != colon))
  if name = eventField then { r with name := value }
  else if name = dataField then { r with data := r.data ++ [value] }
  else r

/-- A blank line; without any data nothing is dispatched. -/
def dispatch (r : Reader) : Reader × List Event :=
  ({ r with name := [], data := [] }, if r.data = [] then [] else [⟨r.name, [lf].intercalate r.data⟩])

def endLine (r : Reader) : Reader × List Event :=
  if r.line = [] then r.dispatch else ({ r with line := [] }.field r.line, [])

def step (r : Reader) (b : UInt8) : Reader × List Event :=
  if b = lf then (if r.afterCr then ({ r with afterCr := false }, []) else r.endLine)
  else if b = cr then { r with afterCr := true }.endLine
  else ({ r with line := r.line ++ [b], afterCr := false }, [])

def feed (r : Reader) : List UInt8 → Reader × List Event
  | [] => (r, [])
  | b :: bytes => (((r.step b).1.feed bytes).1, (r.step b).2 ++ ((r.step b).1.feed bytes).2)

/-- The events read from the start of a stream. -/
def events (bytes : List UInt8) : List Event := (feed {} bytes).2

theorem feed_append (r : Reader) (s t : List UInt8) :
    r.feed (s ++ t) = (((r.feed s).1.feed t).1, (r.feed s).2 ++ ((r.feed s).1.feed t).2) := by
  induction s generalizing r with
  | nil => rfl
  | cons b s ih => rw [List.cons_append, feed, ih, feed, List.append_assoc]

/-- However a stream arrives, the chunks read one after another give the events of the whole. -/
theorem feed_flatten (r : Reader) (chunks : List (List UInt8)) :
    chunks.foldl (fun (read : Reader × List Event) chunk =>
      ((read.1.feed chunk).1, read.2 ++ (read.1.feed chunk).2)) (r, []) = r.feed chunks.flatten := by
  have go (chunks : List (List UInt8)) (r : Reader) (before : List Event) :
      chunks.foldl (fun (read : Reader × List Event) chunk =>
        ((read.1.feed chunk).1, read.2 ++ (read.1.feed chunk).2)) (r, before) =
      ((r.feed chunks.flatten).1, before ++ (r.feed chunks.flatten).2) := by
    induction chunks generalizing r before with
    | nil => simp [feed]
    | cons chunk chunks ih => rw [List.foldl_cons, ih, List.flatten_cons, feed_append, List.append_assoc]
  exact go chunks r []

theorem events_prefix {s t : List UInt8} (h : s <+: t) : events s <+: events t := by
  obtain ⟨rest, rfl⟩ := h
  rw [events, events, feed_append]
  exact List.prefix_append _ _

end Reader

/-! ### Writing -/

def OneLine (s : List UInt8) : Prop := ∀ b ∈ s, b ≠ lf ∧ b ≠ cr

instance (s : List UInt8) : Decidable (OneLine s) := List.decidableBAll (fun b => b ≠ lf ∧ b ≠ cr) s

theorem OneLine.append {s t : List UInt8} (hs : OneLine s) (ht : OneLine t) : OneLine (s ++ t) :=
  List.forall_mem_append.mpr ⟨hs, ht⟩

def fieldLine (name value : List UInt8) : List UInt8 := name ++ colon :: space :: value

namespace Event

/-- Both fields fit on a line. -/
def Plain (e : Event) : Prop := OneLine e.name ∧ OneLine e.data

/-- The default name is not written. -/
def nameLine (e : Event) : List UInt8 := if e.name = [] then [] else fieldLine eventField e.name ++ [lf]

def fields (e : Event) : List UInt8 := e.nameLine ++ (fieldLine dataField e.data ++ [lf])

def frame (e : Event) : List UInt8 := e.fields ++ [lf]

end Event

/-! ### What is written is read -/

namespace Reader

variable {r : Reader}

theorem feed_open {s : List UInt8} (fits : OneLine s) (fresh : r.afterCr = false) :
    r.feed s = ({ r with line := r.line ++ s }, []) := by
  induction s generalizing r with
  | nil => simp [feed]
  | cons b s ih =>
    rw [OneLine, List.forall_mem_cons] at fits
    have stepped : r.step b = ({ r with line := r.line ++ [b] }, []) := by
      rw [step, if_neg fits.1.1, if_neg fits.1.2, fresh]
    have rest := ih fits.2 (show ({ r with line := r.line ++ [b] } : Reader).afterCr = false from fresh)
    rw [feed, stepped]
    dsimp only
    rw [rest, List.append_assoc]
    rfl

theorem feed_line {s : List UInt8} (fits : OneLine s) (fresh : r.afterCr = false) :
    r.feed (s ++ [lf]) = { r with line := r.line ++ s }.endLine := by
  rw [feed_append, feed_open fits fresh]
  dsimp only
  rw [feed, feed, step, if_pos rfl, fresh, if_neg (by decide)]
  simp

theorem field_parts {name value : List UInt8} (noColon : colon ∉ name) :
    (fieldLine name value).takeWhile (· != colon) = name ∧
      fieldValue ((fieldLine name value).dropWhile (· != colon)) = value := by
  have solid : ∀ b ∈ name, (b != colon) = true := by
    intro b hb
    have other : b ≠ colon := fun same => noColon (same ▸ hb)
    simpa using other
  rw [fieldLine, List.takeWhile_append_of_pos solid, List.dropWhile_append_of_pos solid]
  simp [fieldValue]

/-- A line with a field, read between two lines. -/
theorem feed_field {name value : List UInt8} (plain : OneLine name) (fits : OneLine value) (between : r.line = [])
    (fresh : r.afterCr = false) :
    r.feed (fieldLine name value ++ [lf]) = (r.field (fieldLine name value), []) := by
  have whole : OneLine (fieldLine name value) := by
    refine plain.append ?_
    unfold OneLine
    rw [List.forall_mem_cons, List.forall_mem_cons]
    exact ⟨by decide, by decide, fits⟩
  have some : fieldLine name value ≠ [] := by simp [fieldLine]
  rw [feed_line whole fresh, between, List.nil_append, endLine, if_neg some]
  cases r
  cases between
  rfl

theorem feed_name {value : List UInt8} (fits : OneLine value) (between : r.line = []) (fresh : r.afterCr = false) :
    r.feed (fieldLine eventField value ++ [lf]) = ({ r with name := value }, []) := by
  obtain ⟨name, rest⟩ := @field_parts eventField value (by decide)
  rw [feed_field (by decide) fits between fresh, field, name, rest, if_pos rfl]

theorem feed_data {value : List UInt8} (fits : OneLine value) (between : r.line = []) (fresh : r.afterCr = false) :
    r.feed (fieldLine dataField value ++ [lf]) = ({ r with data := r.data ++ [value] }, []) := by
  obtain ⟨name, rest⟩ := @field_parts dataField value (by decide)
  rw [feed_field (by decide) fits between fresh, field, name, rest, if_neg (by decide), if_pos rfl]

theorem feed_fields {e : Event} (plain : e.Plain) : feed {} e.fields = ({ name := e.name, data := [e.data] }, []) := by
  have named : feed {} e.nameLine = ({ name := e.name }, []) := by
    unfold Event.nameLine
    split
    next none => rw [none]; rfl
    · exact feed_name plain.1 rfl rfl
  rw [Event.fields, feed_append, named]
  dsimp only
  rw [feed_data plain.2 rfl rfl]
  rfl

/-- A frame is read as its event, and leaves the reader where it started. -/
theorem feed_frame {e : Event} (plain : e.Plain) : feed {} e.frame = ({}, [e]) := by
  rw [Event.frame, feed_append, feed_fields plain]
  simp [feed, step, endLine, dispatch]

theorem feed_frames {es : List Event} (plain : ∀ e ∈ es, e.Plain) : feed {} (es.flatMap Event.frame) = ({}, es) := by
  induction es with
  | nil => rfl
  | cons e es ih =>
    rw [List.forall_mem_cons] at plain
    rw [List.flatMap_cons, feed_append, feed_frame plain.1]
    dsimp only
    rw [ih plain.2, List.singleton_append]

/-- A frame that is not whole yet dispatches nothing. -/
theorem events_cut {e : Event} (plain : e.Plain) {s : List UInt8} (cut : s <+: e.frame) (less : s ≠ e.frame) :
    events s = [] := by
  have inside : s <+: e.fields := (List.prefix_concat_iff.mp cut).resolve_left less
  have none : events e.fields = [] := by rw [events, feed_fields plain]
  exact List.prefix_nil.mp (none ▸ events_prefix inside)

/-- A stream cut anywhere yields the events of the frames that came whole, and no others. -/
theorem events_of_prefix {es : List Event} (plain : ∀ e ∈ es, e.Plain) {s : List UInt8}
    (cut : s <+: es.flatMap Event.frame) :
    ∃ whole rest, es = whole ++ rest ∧ events s = whole ∧ whole.flatMap Event.frame <+: s ∧
      (rest = [] → s = es.flatMap Event.frame) := by
  induction es generalizing s with
  | nil =>
    obtain rfl := List.prefix_nil.mp cut
    exact ⟨[], [], rfl, rfl, List.nil_prefix, fun _ => rfl⟩
  | cons e es ih =>
    rw [List.forall_mem_cons] at plain
    rw [List.flatMap_cons] at cut
    by_cases first : e.frame <+: s
    · obtain ⟨t, rfl⟩ := first
      obtain ⟨whole, rest, rfl, read, inside, all⟩ := ih plain.2 ((List.prefix_append_right_inj _).mp cut)
      refine ⟨e :: whole, rest, rfl, ?_, ?_, fun none => ?_⟩
      · rw [events, feed_append, feed_frame plain.1]
        exact congrArg (e :: ·) read
      · rw [List.flatMap_cons]
        exact (List.prefix_append_right_inj _).mpr inside
      · rw [List.flatMap_cons, all none]
    · have short : s <+: e.frame :=
        (List.prefix_or_prefix_of_prefix cut (List.prefix_append _ _)).resolve_right first
      have less : s ≠ e.frame := fun same => first (same ▸ List.prefix_refl s)
      exact ⟨[], e :: es, rfl, events_cut plain.1 short less, List.nil_prefix, nofun⟩

end Reader

end Mlxforge.EventStream
