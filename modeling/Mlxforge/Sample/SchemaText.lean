import Mlxforge.Sample.JsonReading

/-!
Grammars compiled from a JSON schema, and the texts such a grammar stands for: one object with the schema's keys in
order, each with a value of its type.
-/

namespace Mlxforge

open Ascii Language
open scoped Computability

namespace JsonGrammar

/-- `type_code`. -/
def typeCode (s : Bytes) : ValueType :=
  if s = .ofAscii "string" then .string
  else if s = .ofAscii "number" then .number
  else if s = .ofAscii "integer" then .integer
  else if s = .ofAscii "boolean" then .boolean
  else .free  -- object, array, null

/-- The properties in the order of their declaration, each with the type its value has. -/
def extractProperties (schema : Json) : Option (List (Bytes × ValueType)) :=
  match schema.find? "properties" with
  | some (.obj properties) => some (properties.map fun (key, prop) =>
      (key, match prop.find? "type" with
        | some (.str s) => typeCode s
        | _ => .free))
  | _ => none

def fromSchema (schema : Json) : JsonGrammar :=
  match extractProperties schema with
  | none => anyValue  -- unsupported: any value
  | some members => { anyValue with schema := true, keys := members.map Prod.fst, types := members.map Prod.snd }

/-- `parse` is the library's parser, which keeps the order of the members; it has no result where the text is
discarded. -/
def fromSchemaString (parse : Bytes → Option Json) (schemaJson : Bytes) : JsonGrammar :=
  if schemaJson = [] ∨ schemaJson = .ofAscii "json" then anyValue
  else
    match parse schemaJson with
    | none => anyValue
    | some schema => fromSchema schema

end JsonGrammar

namespace JsonText

/-- The byte may stand for itself in a string. -/
def Unescaped (b : UInt8) : Prop := 0x20 ≤ b ∧ b ≠ quote ∧ b ≠ backslash

instance : DecidablePred Unescaped := fun _ => inferInstanceAs (Decidable (_ ∧ _))

def integer : Language UInt8 := (1 + word [minus]) * int

def boolean : Language UInt8 := word (Bytes.ofAscii "true") + word (Bytes.ofAscii "false")

/-- The compact texts of a type's values. -/
def typed : ValueType → Language UInt8
  | .free => value false
  | .string => string
  | .number => number
  | .integer => integer
  | .boolean => boolean

/-- The rest of a key and the quote behind it; a key that has to be escaped has no text. -/
def keyRest : Bytes → Language UInt8
  | [] => word [quote]
  | b :: key => symbols (fun a => a = b ∧ Unescaped b) * keyRest key

/-- What follows a value before the listed members. -/
def nextText : List (Bytes × ValueType) → Language UInt8
  | [] => word [closeBrace]
  | (key, t) :: rest => word [comma] * (word [quote] * (keyRest key * (word [colon] * (typed t * nextText rest))))

/-- The members behind the opening brace. -/
def membersText : List (Bytes × ValueType) → Language UInt8
  | [] => word [closeBrace]
  | (key, t) :: rest => word [quote] * (keyRest key * (word [colon] * (typed t * nextText rest)))

def schemaText (members : List (Bytes × ValueType)) : Language UInt8 := word [openBrace] * membersText members

def memberText (m : Bytes × ValueType) (v : Bytes) : Bytes := quote :: (m.1 ++ quote :: colon :: v)

def objectText (members : List Bytes) : Bytes := openBrace :: ((members.intersperse [comma]).flatten ++ [closeBrace])

/-! ### The members, one by one -/

variable {key s : Bytes} {t : ValueType} {m : Bytes × ValueType} {members : List (Bytes × ValueType)} {values : List Bytes}

theorem mem_word_singleton_mul {a : UInt8} {l : Language UInt8} : s ∈ word [a] * l ↔ ∃ w ∈ l, s = a :: w := by
  rw [mem_mul]
  constructor
  · rintro ⟨_, rfl, w, hw, rfl⟩
    exact ⟨w, hw, rfl⟩
  · rintro ⟨w, hw, rfl⟩
    exact ⟨[a], rfl, w, hw, rfl⟩

theorem mem_keyRest : s ∈ keyRest key ↔ (∀ b ∈ key, Unescaped b) ∧ s = key ++ [quote] := by
  induction key generalizing s with
  | nil => simp [keyRest, mem_word]
  | cons b key ih =>
    rw [keyRest, mem_mul]
    constructor
    · rintro ⟨_, ⟨_, ⟨rfl, plain⟩, rfl⟩, w, hw, rfl⟩
      obtain ⟨rest, rfl⟩ := ih.mp hw
      exact ⟨fun c member => (List.mem_cons.mp member).elim (fun same => same ▸ plain) (rest c), rfl⟩
    · rintro ⟨plain, rfl⟩
      exact ⟨[b], ⟨b, ⟨rfl, plain b List.mem_cons_self⟩, rfl⟩, key ++ [quote],
        ih.mpr ⟨fun c member => plain c (List.mem_cons_of_mem _ member), rfl⟩, rfl⟩

theorem mem_member {l : Language UInt8} : s ∈ word [quote] * (keyRest key * (word [colon] * (typed t * l))) ↔
    (∀ b ∈ key, Unescaped b) ∧ ∃ v ∈ typed t, ∃ w ∈ l, s = memberText (key, t) v ++ w := by
  rw [mem_word_singleton_mul]
  constructor
  · rintro ⟨_, ⟨k, hk, _, hw, rfl⟩, rfl⟩
    obtain ⟨plain, rfl⟩ := mem_keyRest.mp hk
    obtain ⟨_, ⟨v, hv, w, behind, rfl⟩, rfl⟩ := mem_word_singleton_mul.mp hw
    exact ⟨plain, v, hv, w, behind, by simp [memberText]⟩
  · rintro ⟨plain, v, hv, w, hw, rfl⟩
    refine ⟨_, append_mem_mul (mem_keyRest.mpr ⟨plain, rfl⟩) (mem_word_singleton_mul.mpr ⟨_, append_mem_mul hv hw, rfl⟩), ?_⟩
    simp [memberText]

/-- What a list of members is written as, each behind a comma. -/
def followers (members : List (Bytes × ValueType)) (values : List Bytes) : Bytes :=
  ((List.zipWith memberText members values).map (comma :: ·)).flatten

theorem mem_nextText : s ∈ nextText members ↔ (∀ m ∈ members, ∀ b ∈ m.1, Unescaped b) ∧
    ∃ values, List.Forall₂ (fun m v => v ∈ typed m.2) members values ∧ s = followers members values ++ [closeBrace] := by
  induction members generalizing s with
  | nil =>
    rw [nextText, mem_word]
    constructor
    · rintro rfl
      exact ⟨nofun, [], .nil, rfl⟩
    · rintro ⟨_, _, types, rfl⟩
      cases types
      rfl
  | cons m members ih =>
    obtain ⟨key, t⟩ := m
    rw [nextText, mem_word_singleton_mul]
    constructor
    · rintro ⟨_, hw, rfl⟩
      obtain ⟨plain, v, hv, w, behind, rfl⟩ := mem_member.mp hw
      obtain ⟨rest, values, types, rfl⟩ := ih.mp behind
      exact ⟨List.forall_mem_cons.mpr ⟨plain, rest⟩, v :: values, .cons hv types, by simp [followers]⟩
    · rintro ⟨plain, _, types, rfl⟩
      cases types with
      | cons hv types =>
        obtain ⟨first, rest⟩ := List.forall_mem_cons.mp plain
        refine ⟨_, mem_member.mpr ⟨first, _, hv, _, ih.mpr ⟨rest, _, types, rfl⟩, rfl⟩, ?_⟩
        simp [followers]

theorem flatten_intersperse (first : Bytes) (rest : List Bytes) :
    ((first :: rest).intersperse [comma]).flatten = first ++ (rest.map (comma :: ·)).flatten := by
  induction rest generalizing first with
  | nil => simp
  | cons second rest ih =>
    rw [List.intersperse_cons_cons, List.flatten_cons, List.flatten_cons, ih, List.map_cons, List.flatten_cons]
    simp

theorem mem_schemaText : s ∈ schemaText members ↔ (∀ m ∈ members, ∀ b ∈ m.1, Unescaped b) ∧
    ∃ values, List.Forall₂ (fun m v => v ∈ typed m.2) members values ∧
      s = objectText (List.zipWith memberText members values) := by
  rw [schemaText, mem_word_singleton_mul]
  cases members with
  | nil =>
    rw [membersText]
    constructor
    · rintro ⟨_, rfl, rfl⟩
      exact ⟨nofun, [], .nil, rfl⟩
    · rintro ⟨_, _, types, rfl⟩
      cases types
      exact ⟨_, rfl, rfl⟩
  | cons m members =>
    obtain ⟨key, t⟩ := m
    rw [membersText]
    constructor
    · rintro ⟨_, hw, rfl⟩
      obtain ⟨plain, v, hv, w, behind, rfl⟩ := mem_member.mp hw
      obtain ⟨rest, values, types, rfl⟩ := mem_nextText.mp behind
      refine ⟨List.forall_mem_cons.mpr ⟨plain, rest⟩, v :: values, .cons hv types, ?_⟩
      rw [objectText, List.zipWith_cons_cons, flatten_intersperse, followers, List.append_assoc]
    · rintro ⟨plain, _, types, rfl⟩
      cases types with
      | cons hv types =>
        obtain ⟨first, rest⟩ := List.forall_mem_cons.mp plain
        refine ⟨_, mem_member.mpr ⟨first, _, hv, _, mem_nextText.mpr ⟨rest, _, types, rfl⟩, rfl⟩, ?_⟩
        rw [objectText, List.zipWith_cons_cons, flatten_intersperse, followers, List.append_assoc]

/-! ### They are JSON -/

theorem mem_string_of_unescaped (plain : ∀ b ∈ key, Unescaped b) : quote :: (key ++ [quote]) ∈ string := by
  have content : key ∈ chars := by
    rw [chars]
    refine mem_kstar.mpr ⟨key.map ([·]), (List.flatMap_singleton' key).symm, fun w member => ?_⟩
    obtain ⟨b, here, rfl⟩ := List.mem_map.mp member
    exact .inl ⟨b, plain b here, rfl⟩
  exact mem_word_singleton_mul.mpr ⟨_, append_mem_mul content rfl, rfl⟩

theorem typed_value (h : s ∈ typed t) : s ∈ value false := by
  cases t with
  | free => exact h
  | string => exact .scalar (.inl (.inl h))
  | number => exact .scalar (.inl (.inr h))
  | integer =>
    refine .scalar (.inl (.inr ?_))
    obtain ⟨sign, hs, n, hn, rfl⟩ := h
    have plain : [] ∈ frac * exp := nil_mem_mul.mpr ⟨.inl rfl, .inl rfl⟩
    exact append_mem_mul hs ⟨n, hn, [], plain, List.append_nil n⟩
  | boolean => exact .scalar (.inr (.inl h))

theorem members_of_typed (plain : ∀ b ∈ m.1, Unescaped b) (types : List.Forall₂ (fun m v => v ∈ typed m.2) members values)
    (rest : ∀ m ∈ members, ∀ b ∈ m.1, Unescaped b) {v : Bytes} (hv : v ∈ typed m.2) :
    Derives false .members (memberText m v ++ followers members values) := by
  have key := mem_string_of_unescaped plain
  have space : [] ∈ ws false := nil_mem_ws
  induction types generalizing m v with
  | nil =>
    have one := Derives.member space key space space (typed_value hv) space
    simpa [memberText, followers] using one
  | @cons m' v' members values hv' types ih =>
    obtain ⟨plain', rest⟩ := List.forall_mem_cons.mp rest
    have more := Derives.members space key space space (typed_value hv) space
      (ih plain' rest hv' (mem_string_of_unescaped plain'))
    simpa [memberText, followers] using more

/-- What the schema allows is a JSON object. -/
theorem schemaText_document (h : s ∈ schemaText members) : s ∈ document false := by
  have value : s ∈ value false := by
    obtain ⟨plain, values, types, rfl⟩ := mem_schemaText.mp h
    cases types with
    | nil => exact .emptyObject nil_mem_ws
    | cons hv types =>
      obtain ⟨first, rest⟩ := List.forall_mem_cons.mp plain
      rw [objectText, List.zipWith_cons_cons, flatten_intersperse]
      exact .object (members_of_typed first types rest hv)
  exact ⟨[], nil_mem_ws, s, ⟨s, value, [], nil_mem_ws, List.append_nil s⟩, rfl⟩

/-! ### Every debt can be paid -/

theorem nonempty_keyRest (plain : ∀ b ∈ key, Unescaped b) : ∃ x, x ∈ keyRest key := ⟨_, mem_keyRest.mpr ⟨plain, rfl⟩⟩

theorem nonempty_int : ∃ x, x ∈ int := nonempty_left nonempty_word

theorem nonempty_typed (t : ValueType) : ∃ x, x ∈ typed t := by
  cases t with
  | free => exact nonempty_value
  | string => exact nonempty_string
  | number =>
    exact nonempty_mul (nonempty_left nonempty_one) (nonempty_mul nonempty_int
      (nonempty_mul (nonempty_left nonempty_one) (nonempty_left nonempty_one)))
  | integer => exact nonempty_mul (nonempty_left nonempty_one) nonempty_int
  | boolean => exact nonempty_left nonempty_word

theorem nonempty_nextText (plain : ∀ m ∈ members, ∀ b ∈ m.1, Unescaped b) : ∃ x, x ∈ nextText members := by
  induction members with
  | nil => exact nonempty_word
  | cons m members ih =>
    obtain ⟨first, rest⟩ := List.forall_mem_cons.mp plain
    exact nonempty_mul nonempty_word (nonempty_mul nonempty_word (nonempty_mul (nonempty_keyRest first)
      (nonempty_mul nonempty_word (nonempty_mul (nonempty_typed _) (ih rest)))))

theorem nonempty_membersText (plain : ∀ m ∈ members, ∀ b ∈ m.1, Unescaped b) : ∃ x, x ∈ membersText members := by
  cases members with
  | nil => exact nonempty_word
  | cons m members =>
    obtain ⟨first, rest⟩ := List.forall_mem_cons.mp plain
    exact nonempty_mul nonempty_word (nonempty_mul (nonempty_keyRest first)
      (nonempty_mul nonempty_word (nonempty_mul (nonempty_typed _) (nonempty_nextText rest))))

end JsonText

end Mlxforge
