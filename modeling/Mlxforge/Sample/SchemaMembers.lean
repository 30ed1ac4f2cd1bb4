import Mlxforge.Sample.JsonRecognizer
import Mlxforge.Sample.SchemaText

/-!
A grammar compiled from a schema, inside the value of a member: it goes on as the grammar of any value does, with the
containers of the value alone, until the value ends.
-/

namespace Mlxforge

open Ascii Language JsonText
open scoped Computability

namespace JsonGrammar

variable {g : JsonGrammar} {b : UInt8} {members : List (Bytes × ValueType)} {i : Nat} {stack : List Container}

/-- The compact grammar of a schema with these members, `i` of which are done. -/
structure Guided (members : List (Bytes × ValueType)) (i : Nat) (g : JsonGrammar) : Prop where
  schema : g.schema = true
  compact : g.allowWs = false
  keys : g.keys = members.map Prod.fst
  types : g.types = members.map Prod.snd
  index : g.schemaKeyIdx = i

/-- The containers of a member's value are open, innermost first. -/
structure Member (stack : List Container) (g : JsonGrammar) : Prop where
  opened : g.stack = stack ++ [.object]
  pending : stack ≠ [] → g.pendingType = .free
  float : g.scalar = .number → g.numIntOnly = false

/-- The grammar of any value at the same place. -/
def within (g : JsonGrammar) (stack : List Container) : JsonGrammar :=
  { g with schema := false, stack, pendingType := .free, numIntOnly := false }

/-- Behind a member's value. -/
structure Behind (g : JsonGrammar) : Prop where
  expect : g.expect = .objectNext
  idle : g.scalar = .none
  opened : g.stack = [.object]
  key : g.readingKey = false

/-- The result `r` of a byte is that of the grammar of any value: both are still within the value, or it has ended. -/
structure Follows (members : List (Bytes × ValueType)) (i : Nat) (r q : Bool × JsonGrammar) : Prop where
  same : r.1 = q.1
  goes : q.1 = true →
    (∃ stack, Guided members i r.2 ∧ Member stack r.2 ∧ r.2.within stack = q.2 ∧ (r.2.scalar ≠ .none ∨ stack ≠ [])) ∨
    (Guided members (i + 1) r.2 ∧ Behind r.2 ∧ q.2.owed = 1)

theorem follows_refused (g g' : JsonGrammar) : Follows members i (false, g) (false, g') := ⟨rfl, nofun⟩

theorem Member.atRoot (guided : Guided members i g) (member : Member stack g) : g.atRoot = stack.isEmpty := by
  rw [JsonGrammar.atRoot, guided.schema, member.opened]
  cases stack with
  | nil => rfl
  | cons top rest => simp

/-- A value ends inside a container of the member's value. -/
theorem push_nested (guided : Guided members i g) (member : Member stack g) (nested : stack ≠ []) (idle : (g.within stack).Idle) :
    Guided members i g.pushValueDone ∧ Member stack g.pushValueDone ∧
      g.pushValueDone.within stack = (g.within stack).pushValueDone ∧ (g.pushValueDone.within stack).Idle := by
  have root := member.atRoot guided
  obtain ⟨top, rest, rfl⟩ := List.exists_cons_of_ne_nil nested
  have stack : g.stack = top :: (rest ++ [.object]) := member.opened
  have done : g.pushValueDone = { g with
      pendingType := .free, expect := if top = .object then .objectNext else .arrayNext } := by
    simp [pushValueDone, root, stack]
  rw [done]
  refine ⟨?_, ⟨member.opened, fun _ => rfl, member.float⟩, ?_, ⟨rfl, rfl, rfl, idle.key, idle.idle⟩⟩
  · exact ⟨guided.schema, guided.compact, guided.keys, guided.types, guided.index⟩
  · rw [pushValueDone_cons idle.free (show (g.within (top :: rest)).stack = top :: rest from rfl)]
    rfl

/-- The member's value ends. -/
theorem push_root (guided : Guided members i g) (member : Member [] g) (idle : (g.within []).Idle) :
    Guided members (i + 1) g.pushValueDone ∧ Behind g.pushValueDone := by
  have root := member.atRoot guided
  have stack : g.stack = [.object] := member.opened
  have done : g.pushValueDone = { g with
      schemaKeyIdx := g.schemaKeyIdx + 1, pendingType := .free, expect := .objectNext } := by
    simp [pushValueDone, root, stack]
  rw [done]
  exact ⟨⟨guided.schema, guided.compact, guided.keys, guided.types, congrArg (· + 1) guided.index⟩,
    ⟨rfl, idle.idle, stack, idle.key⟩⟩

theorem push_follows (guided : Guided members i g) (member : Member stack g) (idle : (g.within stack).Idle) :
    Follows members i (true, g.pushValueDone) (true, (g.within stack).pushValueDone) := by
  refine ⟨rfl, fun _ => ?_⟩
  by_cases nested : stack = []
  · subst nested
    obtain ⟨guided', behind⟩ := push_root guided member idle
    refine .inr ⟨guided', behind, ?_⟩
    rw [pushValueDone_owed idle]
    change ws g.allowWs = 1
    rw [guided.compact]
    rfl
  · obtain ⟨guided', member', same, _⟩ := push_nested guided member nested idle
    exact .inl ⟨stack, guided', member', same, .inr nested⟩

/-- A container of the value ends. -/
theorem close_follows (guided : Guided members i g) (member : Member stack g) (nested : stack ≠ [])
    (idle : (g.within stack).Idle) : Follows members i (true, g.closeContainer) (true, (g.within stack).closeContainer) := by
  obtain ⟨top, rest, rfl⟩ := List.exists_cons_of_ne_nil nested
  have outer : g.closeContainer = { g with stack := rest ++ [Container.object] }.pushValueDone := by
    rw [closeContainer, member.opened]
    rfl
  rw [outer]
  exact push_follows (g := { g with stack := rest ++ [Container.object] }) ⟨guided.schema, guided.compact, guided.keys, guided.types,
    guided.index⟩ ⟨rfl, fun _ => member.pending nested, member.float⟩ ⟨idle.free, idle.pending, idle.float, idle.key, idle.idle⟩

theorem closeObject_follows (guided : Guided members i g) (member : Member stack g) (nested : stack ≠ [])
    (idle : (g.within stack).Idle) : Follows members i g.closeObject (g.within stack).closeObject := by
  have root : g.atRoot = false := by rw [member.atRoot guided, List.isEmpty_eq_false_iff.mpr nested]
  rw [closeObject_eq idle.free, closeObject, root, Bool.false_and, if_neg Bool.false_ne_true]
  exact close_follows guided member nested idle

theorem scalar_follows (guided : Guided members i g) (member : Member stack g) (busy : g.scalar ≠ .none) :
    Follows members i (true, g) (true, g.within stack) :=
  ⟨rfl, fun _ => .inl ⟨stack, guided, member, rfl, .inl busy⟩⟩

/-- A container opens within the value. -/
theorem open_follows (guided : Guided members i g) (member : Member stack g) (free : g.pendingType = .free)
    (top : Container) (expect : Expect) : Follows members i (true, { g with stack := top :: g.stack, expect })
      (true, { g.within stack with stack := top :: stack, expect }) := by
  refine ⟨rfl, fun _ => .inl ⟨top :: stack, ?_, ?_, rfl, .inr (List.cons_ne_nil _ _)⟩⟩
  · exact ⟨guided.schema, guided.compact, guided.keys, guided.types, guided.index⟩
  · exact ⟨by rw [member.opened, List.cons_append], fun _ => free, member.float⟩

theorem literal_follows (guided : Guided members i g) (member : Member stack g) (lit : Bytes) :
    Follows members i (true, g.startLit lit) (true, (g.within stack).startLit lit) :=
  scalar_follows (g := g.startLit lit) ⟨guided.schema, guided.compact, guided.keys, guided.types, guided.index⟩
    ⟨member.opened, member.pending, nofun⟩ nofun

theorem number_follows (guided : Guided members i g) (member : Member stack g) (num : Num) :
    Follows members i (true, g.startNumber num .free) (true, (g.within stack).startNumber num .free) :=
  scalar_follows (g := g.startNumber num .free) ⟨guided.schema, guided.compact, guided.keys, guided.types, guided.index⟩
    ⟨member.opened, member.pending, fun _ => rfl⟩ nofun

/-- The first byte of a value of any type. -/
theorem begin_follows (guided : Guided members i g) (member : Member stack g) (b : UInt8)
    (free : b = openBrace ∨ b = openBracket → g.pendingType = .free) :
    Follows members i (g.beginValue b .free) ((g.within stack).beginValue b .free) := by
  unfold beginValue
  simp only [typeAllows, Bool.not_true, Bool.false_eq_true, if_false]
  split
  · exact scalar_follows (g := { g with scalar := .string })
      ⟨guided.schema, guided.compact, guided.keys, guided.types, guided.index⟩ ⟨member.opened, member.pending, by simp⟩ (by simp)
  · split
    · rename_i brace
      exact open_follows guided member (free (.inl brace)) .object .objectKeyOrEnd
    · split
      · rename_i bracket
        exact open_follows guided member (free (.inr bracket)) .array .arrayValueOrEnd
      · split
        · exact literal_follows guided member _
        · split
          · exact literal_follows guided member _
          · split
            · exact literal_follows guided member _
            · split
              · exact number_follows guided member _
              · split
                · exact number_follows guided member _
                · split
                  · exact number_follows guided member _
                  · exact follows_refused _ _

/-- A state where only what is expected next has changed, with containers of the value open. -/
theorem expect_follows (guided : Guided members i g) (member : Member stack g) (nested : stack ≠ []) (expect : Expect) :
    Follows members i (true, { g with expect }) (true, { g.within stack with expect }) :=
  ⟨rfl, fun _ => .inl ⟨stack, ⟨guided.schema, guided.compact, guided.keys, guided.types, guided.index⟩,
    ⟨member.opened, member.pending, member.float⟩, rfl, .inr nested⟩⟩

theorem key_follows (guided : Guided members i g) (member : Member stack g) :
    Follows members i (true, g.startKey) (true, (g.within stack).startKey) :=
  scalar_follows (g := g.startKey) ⟨guided.schema, guided.compact, guided.keys, guided.types, guided.index⟩
    ⟨member.opened, member.pending, nofun⟩ nofun

/-- The bytes of structure, with containers of the value open. -/
theorem structural_follows (guided : Guided members i g) (member : Member stack g) (nested : stack ≠ [])
    (idle : (g.within stack).Idle) (b : UInt8) : Follows members i (g.structural b) ((g.within stack).structural b) := by
  have free := member.pending nested
  have root : g.atRoot = false := by rw [member.atRoot guided, List.isEmpty_eq_false_iff.mpr nested]
  have keysLeft : g.schemaKeysExhausted = false := by rw [schemaKeysExhausted, root, Bool.false_and]
  have keysLeft' : (g.within stack).schemaKeysExhausted = false := rfl
  have inside : (g.schema && g.stack.isEmpty && b != openBrace) = false := by
    rw [member.opened]
    simp
  have same : (g.within stack).expect = g.expect := rfl
  have closes := close_follows guided member nested idle
  have closesObject := closeObject_follows guided member nested idle
  have begins := begin_follows guided member b fun _ => free
  unfold structural
  rw [same]
  cases g.expect with
  | value =>
    dsimp only
    rw [inside, free]
    exact begins
  | arrayValueOrEnd =>
    dsimp only
    split
    · exact closes
    · exact begins
  | objectKeyOrEnd =>
    dsimp only
    rw [keysLeft, keysLeft']
    split
    · exact closesObject
    · split
      · exact key_follows guided member
      · exact follows_refused _ _
  | objectKey =>
    dsimp only
    rw [keysLeft, keysLeft']
    split
    · exact key_follows guided member
    · exact follows_refused _ _
  | objectColon =>
    dsimp only
    split
    · exact expect_follows guided member nested .value
    · exact follows_refused _ _
  | objectNext =>
    dsimp only
    rw [keysLeft, keysLeft']
    split
    · exact expect_follows guided member nested .objectKey
    · split
      · exact closesObject
      · exact follows_refused _ _
  | arrayNext =>
    dsimp only
    split
    · refine ⟨rfl, fun _ => .inl ⟨stack, ?_, ⟨member.opened, fun _ => rfl, member.float⟩, rfl, .inr nested⟩⟩
      exact ⟨guided.schema, guided.compact, guided.keys, guided.types, guided.index⟩
    · split
      · exact closes
      · exact follows_refused _ _
  | finish => exact follows_refused _ _

theorem between_follows (guided : Guided members i g) (member : Member stack g) (nested : stack ≠ [])
    (idle : (g.within stack).Idle) (b : UInt8) : Follows members i (g.between b) ((g.within stack).between b) := by
  unfold between
  split
  · have compact' : (g.within stack).allowWs = false := guided.compact
    rw [guided.compact, compact']
    exact follows_refused _ _
  · exact structural_follows guided member nested idle b

/-! ### Scalars -/

/-- Within a scalar only what is read of it changes. -/
theorem read_follows (guided : Guided members i g) (member : Member stack g) (scalar : Scalar) (num : Num) (uLeft : Int)
    (litPos : Nat) (busy : scalar ≠ .none) (float : scalar = .number → g.numIntOnly = false) :
    Follows members i (true, { g with scalar, num, uLeft, litPos })
      (true, { g.within stack with scalar, num, uLeft, litPos }) :=
  scalar_follows (g := { g with scalar, num, uLeft, litPos })
    ⟨guided.schema, guided.compact, guided.keys, guided.types, guided.index⟩ ⟨member.opened, member.pending, float⟩ busy

/-- The key that the schema asks for is not read here. -/
theorem not_schemaKey (guided : Guided members i g) (member : Member stack g) (plain : (g.within stack).Plain) :
    (g.readingKey && g.atRoot) = false := by
  cases key : g.readingKey with
  | false => rfl
  | true =>
    have head := (plain.readingKey key).1
    rw [member.atRoot guided]
    cases stack with
    | nil => cases head
    | cons top rest => rfl

theorem closeString_follows (guided : Guided members i g) (member : Member stack g) (plain : (g.within stack).Plain) :
    Follows members i g.closeString (g.within stack).closeString := by
  have guided' : Guided members i { g with scalar := .none } :=
    ⟨guided.schema, guided.compact, guided.keys, guided.types, guided.index⟩
  have member' : Member stack { g with scalar := .none } := ⟨member.opened, member.pending, nofun⟩
  unfold closeString
  change Follows members i (if g.readingKey then _ else _) (if g.readingKey then _ else _)
  split
  · rename_i key
    have nested : stack ≠ [] := by
      rintro rfl
      cases (plain.readingKey key).1
    have root : ({ g with scalar := .none } : JsonGrammar).atRoot = false := by
      rw [member'.atRoot guided', List.isEmpty_eq_false_iff.mpr nested]
    simp only [root]
    refine ⟨rfl, fun _ => .inl ⟨stack, ?_, ⟨member.opened, member.pending, nofun⟩, rfl, .inr nested⟩⟩
    exact ⟨guided.schema, guided.compact, guided.keys, guided.types, guided.index⟩
  · rename_i key
    exact push_follows guided' member' ⟨rfl, rfl, rfl, Bool.eq_false_iff.mpr key, rfl⟩

theorem feedString_follows (guided : Guided members i g) (member : Member stack g) (plain : (g.within stack).Plain)
    (string : g.scalar = .string) (b : UInt8) : Follows members i (g.feedString b) ((g.within stack).feedString b) := by
  have other := not_schemaKey guided member plain
  have other' : ((g.within stack).readingKey && (g.within stack).atRoot) = false := by simp [JsonGrammar.atRoot, within]
  have busy : g.scalar ≠ .none := by simp [string]
  unfold feedString
  simp only [other, other']
  split
  · exact closeString_follows guided member plain
  · split
    · exact read_follows guided member .stringEsc g.num g.uLeft g.litPos (by simp) (by simp)
    · split
      · exact follows_refused _ _
      · exact scalar_follows guided member busy

theorem feedEscape_follows (guided : Guided members i g) (member : Member stack g) (b : UInt8) :
    Follows members i (g.feedEscape b) ((g.within stack).feedEscape b) := by
  unfold feedEscape
  split
  · exact read_follows guided member .string g.num g.uLeft g.litPos nofun nofun
  · split
    · exact read_follows guided member .stringU g.num 4 g.litPos nofun nofun
    · exact follows_refused _ _

theorem feedUnicode_follows (guided : Guided members i g) (member : Member stack g) (unicode : g.scalar = .stringU) (b : UInt8) :
    Follows members i (g.feedUnicode b) ((g.within stack).feedUnicode b) := by
  have same : (g.within stack).uLeft = g.uLeft := rfl
  unfold feedUnicode
  dsimp only
  rw [same]
  split
  · exact follows_refused _ _
  · split
    · exact read_follows guided member .string g.num (g.uLeft - 1) g.litPos nofun nofun
    · exact read_follows guided member g.scalar g.num (g.uLeft - 1) g.litPos
        (by simp [unicode]) member.float

theorem feedLit_follows (guided : Guided members i g) (member : Member stack g) (plain : (g.within stack).Plain)
    (lit : g.scalar = .lit) (b : UInt8) : Follows members i (g.feedLit b) ((g.within stack).feedLit b) := by
  have key : g.readingKey = false := plain.notKey (.inl lit)
  have same : (g.within stack).lit = g.lit ∧ (g.within stack).litPos = g.litPos := ⟨rfl, rfl⟩
  unfold feedLit
  dsimp only
  rw [same.1, same.2]
  split
  · split
    · exact push_follows (g := { g with litPos := g.litPos + 1, scalar := .none })
        ⟨guided.schema, guided.compact, guided.keys, guided.types, guided.index⟩ ⟨member.opened, member.pending, nofun⟩
        ⟨rfl, rfl, rfl, key, rfl⟩
    · exact read_follows guided member g.scalar g.num g.uLeft (g.litPos + 1)
        (by simp [lit]) member.float
  · exact follows_refused _ _

/-- A number with a container of the value around it. -/
theorem feedNumber_follows (guided : Guided members i g) (member : Member stack g) (nested : stack ≠ [])
    (plain : (g.within stack).Plain) (number : g.scalar = .number) (b : UInt8) :
    Follows members i (g.feedNumber b) ((g.within stack).feedNumber b) := by
  have key : g.readingKey = false := plain.notKey (.inr number)
  have goesOn : (g.within stack).numberContinue b = g.numberContinue b := by
    unfold numberContinue
    rw [member.float number]
    rfl
  unfold feedNumber
  rw [goesOn]
  split
  · exact read_follows guided member g.scalar _ g.uLeft g.litPos (by simp [number]) member.float
  · unfold finishScalarThen
    change Follows members i (if !g.num.terminable then _ else _) (if !g.num.terminable then _ else _)
    split
    · exact follows_refused _ _
    · have idle : ({ g with scalar := .none } : JsonGrammar).within stack |>.Idle := ⟨rfl, rfl, rfl, key, rfl⟩
      obtain ⟨guided', member', same, idle'⟩ := push_nested (g := { g with scalar := .none })
        ⟨guided.schema, guided.compact, guided.keys, guided.types, guided.index⟩ ⟨member.opened, member.pending, nofun⟩ nested
        idle
      have after := between_follows guided' member' nested idle' b
      rw [same] at after
      exact after

/-- A byte within the value of a member, but for a number right there. -/
theorem feed_follows (guided : Guided members i g) (member : Member stack g) (plain : (g.within stack).Plain)
    (busy : g.scalar ≠ .none ∨ stack ≠ []) (inner : g.scalar = .number → stack ≠ []) (b : UInt8) :
    Follows members i (g.feed b) ((g.within stack).feed b) := by
  have same : (g.within stack).scalar = g.scalar := rfl
  unfold feed
  rw [same]
  cases scalar : g.scalar with
  | none => exact between_follows guided member (busy.resolve_left fun other => other scalar) (plain.between scalar) b
  | string => exact feedString_follows guided member plain scalar b
  | stringEsc => exact feedEscape_follows guided member b
  | stringU => exact feedUnicode_follows guided member scalar b
  | lit => exact feedLit_follows guided member plain scalar b
  | number => exact feedNumber_follows guided member (inner scalar) plain scalar b

end JsonGrammar

end Mlxforge
