import Mlxforge.Json.Value

/-!
The byte-level JSON grammar of constrained decoding: an automaton over a stack of open containers.
-/

namespace Mlxforge

namespace Ascii

abbrev quote : UInt8 := 0x22
abbrev plus : UInt8 := 0x2B
abbrev comma : UInt8 := 0x2C
abbrev minus : UInt8 := 0x2D
abbrev dot : UInt8 := 0x2E
abbrev zero : UInt8 := 0x30
abbrev colon : UInt8 := 0x3A
abbrev openBracket : UInt8 := 0x5B
abbrev backslash : UInt8 := 0x5C
abbrev closeBracket : UInt8 := 0x5D
abbrev openBrace : UInt8 := 0x7B
abbrev closeBrace : UInt8 := 0x7D

end Ascii

open Ascii

def isWs (b : UInt8) : Bool := b == 0x20 || b == 0x09 || b == 0x0A || b == 0x0D
def isDigit (b : UInt8) : Bool := 0x30 ≤ b && b ≤ 0x39
def isHex (b : UInt8) : Bool := isDigit b || (0x61 ≤ b && b ≤ 0x66) || (0x41 ≤ b && b ≤ 0x46)
/-- `e` or `E`. -/
def isExp (b : UInt8) : Bool := b == 0x65 || b == 0x45
/-- The escapes of one letter: the quote, `\`, `/`, `b`, `f`, `n`, `r` and `t`. -/
def isEscape (b : UInt8) : Bool :=
  b == quote || b == backslash || b == 0x2F || b == 0x62 || b == 0x66 || b == 0x6E || b == 0x72 || b == 0x74

/-- What is expected next at a structural position. -/
inductive Expect where
  | value | arrayValueOrEnd | objectKeyOrEnd | objectKey | objectColon | objectNext | arrayNext
  /-- `End`: only whitespace remains. -/
  | finish
  deriving DecidableEq, Repr

/-- The scalar in progress. -/
inductive Scalar where
  | none | string | stringEsc | stringU | number | lit
  deriving DecidableEq, Repr

inductive Num where
  | sign | intZero | intDigits | fracDot | fracDigits | expStart | expAfterSign | expDigits
  deriving DecidableEq, Repr

/-- The schema type of the next value. -/
inductive ValueType where
  | free | string | number | integer | boolean
  deriving DecidableEq, Repr

inductive Container where
  | object | array
  deriving DecidableEq, Repr

structure JsonGrammar where
  expect : Expect := .value
  scalar : Scalar := .none
  num : Num := .sign
  numIntOnly : Bool := false
  lit : Bytes := []
  litPos : Nat := 0
  uLeft : Int := 0
  /-- The open containers, innermost first. -/
  stack : List Container := []
  allowWs : Bool := true
  schema : Bool := false
  /-- `root_schema_.keys` and `root_schema_.types`. -/
  keys : List Bytes := []
  types : List ValueType := []
  schemaKeyIdx : Nat := 0
  pendingType : ValueType := .free
  curKey : Bytes := []
  readingKey : Bool := false
  deriving DecidableEq, Repr

/-- A number may end in these states. -/
def Num.terminable : Num → Bool
  | .intZero | .intDigits | .fracDigits | .expDigits => true
  | _ => false

namespace JsonGrammar

def anyValue : JsonGrammar := {}

variable (g : JsonGrammar)

def setCompact (compact : Bool) : JsonGrammar := { g with allowWs := !compact }

/-- Inside the one object the schema describes. -/
def atRoot : Bool := g.schema && g.stack.length == 1

def schemaKeysExhausted : Bool := g.atRoot && g.keys.length ≤ g.schemaKeyIdx

def startKey : JsonGrammar := { g with scalar := .string, readingKey := true, curKey := [] }

def pushValueDone : JsonGrammar :=
  let g := if g.stack.head? == some .object && g.atRoot then { g with schemaKeyIdx := g.schemaKeyIdx + 1 } else g
  match g.stack with
  | [] => { g with expect := .finish }
  | top :: _ => { g with pendingType := .free, expect := if top = .object then .objectNext else .arrayNext }

def closeContainer : JsonGrammar :=
  match g.stack with
  | [] => g
  | _ :: stack => { g with stack }.pushValueDone

/-- Whether `b` extends the number in progress, and the state after it. -/
def numberContinue (b : UInt8) : Option Num :=
  match g.num with
  | .sign => if b = zero then some .intZero else if 0x31 ≤ b ∧ b ≤ 0x39 then some .intDigits else none
  | .intZero =>
    if g.numIntOnly then none  -- integer: no fraction, no exponent
    else if b = dot then some .fracDot
    else if isExp b then some .expStart
    else none
  | .intDigits =>
    if isDigit b then some .intDigits
    else if g.numIntOnly then none
    else if b = dot then some .fracDot
    else if isExp b then some .expStart
    else none
  | .fracDot => if isDigit b then some .fracDigits else none
  | .fracDigits => if isDigit b then some .fracDigits else if isExp b then some .expStart else none
  | .expStart => if b = plus ∨ b = minus then some .expAfterSign else if isDigit b then some .expDigits else none
  | .expAfterSign => if isDigit b then some .expDigits else none
  | .expDigits => if isDigit b then some .expDigits else none

/-- The first byte a typed value may have. -/
def typeAllows (b : UInt8) : ValueType → Bool
  | .string => b == quote
  | .integer | .number => b == minus || isDigit b
  | .boolean => b == 0x74 || b == 0x66
  | .free => true

def startLit (lit : Bytes) : JsonGrammar := { g with scalar := .lit, lit, litPos := 1 }

def startNumber (num : Num) (t : ValueType) : JsonGrammar :=
  { g with scalar := .number, num, numIntOnly := t == .integer }

/-- The calls below give their result, false if the byte is refused, and the state they leave. -/
def beginValue (b : UInt8) (t : ValueType) : Bool × JsonGrammar :=
  if !typeAllows b t then (false, g)
  else if b = quote then (true, { g with scalar := .string })
  else if b = openBrace then (true, { g with stack := .object :: g.stack, expect := .objectKeyOrEnd })
  else if b = openBracket then (true, { g with stack := .array :: g.stack, expect := .arrayValueOrEnd })
  else if b = 0x74 then (true, g.startLit (.ofAscii "true"))
  else if b = 0x66 then (true, g.startLit (.ofAscii "false"))
  else if b = 0x6E then (true, g.startLit (.ofAscii "null"))
  else if b = minus then (true, g.startNumber .sign t)
  else if b = zero then (true, g.startNumber .intZero t)
  else if 0x31 ≤ b ∧ b ≤ 0x39 then (true, g.startNumber .intDigits t)
  else (false, g)

/-- Close the object, unless the schema still requires a key. -/
def closeObject : Bool × JsonGrammar :=
  if g.atRoot && g.schemaKeyIdx != g.keys.length then (false, g) else (true, g.closeContainer)

def structural (b : UInt8) : Bool × JsonGrammar :=
  match g.expect with
  | .value => if g.schema && g.stack.isEmpty && b != openBrace then (false, g) else g.beginValue b g.pendingType
  | .arrayValueOrEnd => if b = closeBracket then (true, g.closeContainer) else g.beginValue b .free
  | .objectKeyOrEnd =>
    if b = closeBrace then g.closeObject
    else if b = quote then if g.schemaKeysExhausted then (false, g) else (true, g.startKey)
    else (false, g)
  | .objectKey => if b = quote then if g.schemaKeysExhausted then (false, g) else (true, g.startKey) else (false, g)
  | .objectColon => if b = colon then (true, { g with expect := .value }) else (false, g)
  | .objectNext =>
    if b = comma then if g.schemaKeysExhausted then (false, g) else (true, { g with expect := .objectKey })
    else if b = closeBrace then g.closeObject
    else (false, g)
  | .arrayNext =>
    if b = comma then (true, { g with expect := .value, pendingType := .free })
    else if b = closeBracket then (true, g.closeContainer)
    else (false, g)
  | .finish => (false, g)

/-- No scalar is open: whitespace, or structure. -/
def between (b : UInt8) : Bool × JsonGrammar := if isWs b then (g.allowWs, g) else g.structural b

/-- The number in progress ends and `b` is handled after it. -/
def finishScalarThen (b : UInt8) : Bool × JsonGrammar :=
  if !g.num.terminable then (false, g) else ({ g with scalar := .none }.pushValueDone).between b

/-- A quote inside a string: the key or value is closed. -/
def closeString : Bool × JsonGrammar :=
  let g := { g with scalar := .none }
  if g.readingKey then
    if g.atRoot then
      if g.curKey.length ≠ (g.keys.getD g.schemaKeyIdx []).length then (false, g)
      else (true, { g with pendingType := g.types.getD g.schemaKeyIdx .free, readingKey := false, expect := .objectColon })
    else (true, { g with readingKey := false, expect := .objectColon })
  else (true, g.pushValueDone)

def feedString (b : UInt8) : Bool × JsonGrammar :=
  let schemaKey := g.readingKey && g.atRoot
  if b = quote then g.closeString
  else if b = backslash then if schemaKey then (false, g) else (true, { g with scalar := .stringEsc })
  else if b < 0x20 then (false, g)
  else if schemaKey then
    -- the key must be the schema's next one, byte for byte
    if (g.keys.getD g.schemaKeyIdx [])[g.curKey.length]? = some b then (true, { g with curKey := g.curKey ++ [b] })
    else (false, g)
  else (true, g)

def feedEscape (b : UInt8) : Bool × JsonGrammar :=
  if isEscape b then (true, { g with scalar := .string })
  else if b = 0x75 then (true, { g with scalar := .stringU, uLeft := 4 })
  else (false, g)

def feedUnicode (b : UInt8) : Bool × JsonGrammar :=
  if !isHex b then (false, g)
  else
    let g := { g with uLeft := g.uLeft - 1 }
    (true, if g.uLeft = 0 then { g with scalar := .string } else g)

def feedLit (b : UInt8) : Bool × JsonGrammar :=
  if g.lit[g.litPos]? = some b then
    let g := { g with litPos := g.litPos + 1 }
    (true, if g.litPos = g.lit.length then { g with scalar := .none }.pushValueDone else g)
  else (false, g)

def feedNumber (b : UInt8) : Bool × JsonGrammar :=
  match g.numberContinue b with
  | some num => (true, { g with num })
  | none => g.finishScalarThen b

def feed (b : UInt8) : Bool × JsonGrammar :=
  match g.scalar with
  | .string => g.feedString b
  | .stringEsc => g.feedEscape b
  | .stringU => g.feedUnicode b
  | .lit => g.feedLit b
  | .number => g.feedNumber b
  | .none => g.between b

/-- Whether the bytes keep the output a prefix of a document. -/
def accepts (g : JsonGrammar) : Bytes → Bool
  | [] => true
  | b :: bytes => (g.feed b).1 && accepts (g.feed b).2 bytes

def advance (bytes : Bytes) : JsonGrammar := bytes.foldl (fun g b => (g.feed b).2) g

def complete : Bool :=
  if g.expect = .finish then true else g.stack.isEmpty && g.scalar == .number && g.num.terminable

end JsonGrammar

end Mlxforge
