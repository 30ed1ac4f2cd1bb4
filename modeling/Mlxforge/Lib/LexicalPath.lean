import Mlxforge.Lib.Utf8
import Mathlib.Data.List.DropRight
import Mathlib.Tactic

/-!
# Paths

A path is a text of components, and where no directory is a symbolic link it leads where its components do, one after the
other. Joining two paths keeps to the first one only as long as the second neither is absolute nor climbs out of it.
-/

namespace Mlxforge.FsPath

abbrev slash : UInt8 := 0x2F

/-- The components of a path from the root, without `.` and `..`. -/
abbrev Place := List Bytes

def isAbsolute (p : Bytes) : Bool := p.head? == some slash

/-- `p / q`: an absolute `q` replaces `p`. -/
def join (p q : Bytes) : Bytes :=
  if isAbsolute q then q else if p = [] ∨ p.getLast? = some slash then p ++ q else p ++ slash :: q

def dot : Bytes := [0x2E]

def dotdot : Bytes := [0x2E, 0x2E]

def components (p : Bytes) : List Bytes := (p.splitOn slash).filter fun c => decide (c ≠ [] ∧ c ≠ dot)

/-- Into a directory, or up to the parent, which the root is to itself. -/
def enter (at_ : Place) (c : Bytes) : Place := if c = dotdot then at_.dropLast else at_ ++ [c]

def locate (cwd : Place) (p : Bytes) : Place := (components p).foldl enter (if isAbsolute p then [] else cwd)

variable {p q c : Bytes} {cwd base : Place}

/-! ### Components -/

theorem components_append_slash (p q : Bytes) : components (p ++ slash :: q) = components p ++ components q := by
  rw [components, List.splitOn_append_cons_self, List.filter_append, ← components, ← components]

theorem components_nil : components [] = [] := by decide

theorem components_join (relative : isAbsolute q = false) : components (join p q) = components p ++ components q := by
  rw [join, if_neg (by simp [relative])]
  split
  next ends =>
    rcases ends with rfl | ends
    · rw [List.nil_append, components_nil, List.nil_append]
    · obtain ⟨p, rfl⟩ := List.getLast?_eq_some_iff.mp ends
      rw [List.append_assoc, List.singleton_append, components_append_slash, components_append_slash, components_nil,
        List.append_nil]
  next => exact components_append_slash p q

/-- A name that is a component by itself. -/
def Plain (c : Bytes) : Prop := slash ∉ c ∧ c ≠ [] ∧ c ≠ dot ∧ c ≠ dotdot

theorem Plain.components (plain : Plain c) : components c = [c] := by
  rw [FsPath.components, List.splitOn_eq_singleton plain.1, List.filter_cons_of_pos (by simp [plain.2]), List.filter_nil]

theorem Plain.relative (plain : Plain c) : isAbsolute c = false := by
  cases c with
  | nil => rfl
  | cons b c =>
    have other : b ≠ slash := fun same => plain.1 (by simp [same])
    simpa [isAbsolute] using other

theorem isAbsolute_join (relative : isAbsolute q = false) : isAbsolute (join p q) = isAbsolute p := by
  rw [join, if_neg (by simp [relative])]
  cases p with
  | nil =>
    rw [if_pos (.inl rfl), List.nil_append]
    exact relative
  | cons b p => split <;> rfl

/-! ### Places -/

theorem locate_join (relative : isAbsolute q = false) :
    locate cwd (join p q) = (components q).foldl enter (locate cwd p) := by
  rw [locate, components_join relative, isAbsolute_join relative, List.foldl_append, ← locate]

theorem locate_join_absolute (absolute : isAbsolute q = true) : locate cwd (join p q) = (components q).foldl enter [] := by
  rw [join, if_pos absolute, locate, if_pos absolute]

theorem Plain.locate_join (plain : Plain c) : locate cwd (join p c) = locate cwd p ++ [c] := by
  rw [FsPath.locate_join plain.relative, plain.components, List.foldl_cons, List.foldl_nil, enter, if_neg plain.2.2.2]

/-- What a walk does wherever it starts: so many steps up, and then down. -/
structure Climb where
  up : Nat
  down : List Bytes
  deriving DecidableEq

def Climb.step (k : Climb) (c : Bytes) : Climb :=
  if c = dotdot then if k.down = [] then { k with up := k.up + 1 } else { k with down := k.down.dropLast }
  else { k with down := k.down ++ [c] }

def climb (cs : List Bytes) : Climb := cs.foldl Climb.step { up := 0, down := [] }

theorem climb_append (cs : List Bytes) (c : Bytes) : climb (cs ++ [c]) = (climb cs).step c := by
  rw [climb, List.foldl_append, List.foldl_cons, List.foldl_nil, ← climb]

theorem foldl_enter (cs : List Bytes) (base : Place) :
    cs.foldl enter base = base.take (base.length - (climb cs).up) ++ (climb cs).down := by
  induction cs using List.reverseRecOn with
  | nil => simp [climb]
  | append_singleton cs c ih =>
    rw [List.foldl_append, List.foldl_cons, List.foldl_nil, ih, climb_append, Climb.step, enter]
    split
    · split
      next empty =>
        rw [empty, List.append_nil, List.append_nil, List.dropLast_eq_take, List.length_take, List.take_take]
        congr 1
        simp only
        omega
      next some => rw [List.dropLast_append_of_ne_nil some]
    · rw [List.append_assoc]

/-- A walk stays within its start if it names again what it climbed out of. -/
theorem within_iff (cs : List Bytes) (base : Place) :
    base <+: cs.foldl enter base ↔ base.drop (base.length - (climb cs).up) <+: (climb cs).down := by
  rw [foldl_enter]
  conv => lhs; lhs; rw [← List.take_append_drop (base.length - (climb cs).up) base]
  exact List.prefix_append_right_inj _

/-- What stands behind the last slash. -/
def lastPart (p : Bytes) : Bytes := p.rtakeWhile (· != slash)

theorem lastPart_suffix (p : Bytes) : lastPart p <:+ p := List.rtakeWhile_suffix _ p

theorem slash_notMem_lastPart (p : Bytes) : slash ∉ lastPart p := by
  intro member
  have differs := List.mem_rtakeWhile_imp member
  simp at differs

theorem split_lastPart (p : Bytes) : (∃ front, p = front ++ slash :: lastPart p) ∨ p = lastPart p := by
  have whole : p.rdropWhile (· != slash) ++ lastPart p = p := List.rdropWhile_append_rtakeWhile
  cases empty : decide (p.rdropWhile (· != slash) = []) with
  | true =>
    rw [of_decide_eq_true empty, List.nil_append] at whole
    exact .inr whole.symm
  | false =>
    have some := of_decide_eq_false empty
    have last := List.rdropWhile_last_not (· != slash) p some
    rw [← List.dropLast_concat_getLast some, List.append_assoc, List.singleton_append,
      show (p.rdropWhile (· != slash)).getLast some = slash by simpa using last] at whole
    exact .inl ⟨_, whole.symm⟩

theorem components_lastPart (plain : Plain (lastPart p)) : ∃ cs, components p = cs ++ [lastPart p] := by
  rcases split_lastPart p with ⟨front, split⟩ | alone
  · refine ⟨components front, ?_⟩
    conv => lhs; rw [split, components_append_slash, plain.components]
  · refine ⟨[], ?_⟩
    conv => lhs; rw [alone, plain.components]
    rfl

/-- A joined path whose last part is a name leads to that name somewhere. -/
theorem locate_join_lastPart (plain : Plain (lastPart q)) (cwd : Place) (p : Bytes) :
    ∃ parent, locate cwd (join p q) = parent ++ [lastPart q] := by
  obtain ⟨cs, split⟩ := components_lastPart plain
  have last : ∀ base : Place, (components q).foldl enter base = cs.foldl enter base ++ [lastPart q] := by
    intro base
    rw [split, List.foldl_append, List.foldl_cons, List.foldl_nil, enter, if_neg plain.2.2.2]
  cases absolute : isAbsolute q with
  | true => exact ⟨_, by rw [locate_join_absolute absolute, last]⟩
  | false => exact ⟨_, by rw [locate_join absolute, last]⟩

theorem lastPart_append (p : Bytes) {s : Bytes} (plain : slash ∉ s) : lastPart (p ++ s) = lastPart p ++ s := by
  have tail : ∀ c ∈ s.reverse, (c != slash) = true := by
    intro c member
    have other : c ≠ slash := fun same => plain (same ▸ List.mem_reverse.mp member)
    simp [other]
  rw [lastPart, lastPart, List.rtakeWhile, List.rtakeWhile, List.reverse_append, List.takeWhile_append_of_pos tail,
    List.reverse_append, List.reverse_reverse]

end Mlxforge.FsPath
