import Mlxforge.Lib.Except
import Mlxforge.Lib.Utf8

/-!
JSON values as the code handles them: lookups, conversions, and the compact text of `dump`, which refuses a string
that is not UTF-8.
-/

namespace Mlxforge

/-- What the request and tokenizer code throws. -/
inductive Exn where
  | runtime (what : String)
  /-- `json::parse_error`, `json::type_error` and `json::out_of_range`. -/
  | parse | type | outOfRange
  /-- An access that C++ leaves undefined. -/
  | undefined
  deriving DecidableEq, Repr

inductive Json where
  | null
  | bool (b : Bool)
  | int (i : Int)
  | float (x : Rat)
  | str (s : Bytes)
  | arr (items : List Json)
  | obj (fields : List (Bytes × Json))

namespace Json

def isNull : Json → Bool
  | .null => true
  | _ => false

def isObject : Json → Bool
  | .obj _ => true
  | _ => false

/-- `find`, which has no result on a value that is not an object. -/
def find? (key : String) : Json → Option Json
  | .obj fields => fields.lookup (.ofAscii key)
  | _ => none

def getString : Json → Except Exn Bytes
  | .str s => .ok s
  | _ => .error .type

def getBool : Json → Except Exn Bool
  | .bool b => .ok b
  | _ => .error .type

/-- `get<int>`: numbers are truncated and booleans count as 0 and 1. -/
def getInt : Json → Except Exn Int
  | .int i => .ok i
  | .float x => .ok (if 0 ≤ x then ⌊x⌋ else ⌈x⌉)
  | .bool b => .ok b.toInt
  | _ => .error .type

/-- `value(key, default)`. -/
def value {α : Type} (get : Json → Except Exn α) (key : String) (default : α) (j : Json) : Except Exn α :=
  if j.isObject then
    match j.find? key with
    | some v => get v
    | none => .ok default
  else .error .type

/-! ### Text -/

def hexDigit (n : Nat) : UInt8 := UInt8.ofNat (if n < 10 then 0x30 + n else 0x61 + (n - 10))

/-- A byte inside a string. -/
def escape (b : UInt8) : Bytes :=
  if b = 0x08 then .ofAscii "\\b"
  else if b = 0x09 then .ofAscii "\\t"
  else if b = 0x0A then .ofAscii "\\n"
  else if b = 0x0C then .ofAscii "\\f"
  else if b = 0x0D then .ofAscii "\\r"
  else if b = 0x22 then .ofAscii "\\\""
  else if b = 0x5C then .ofAscii "\\\\"
  else if b ≤ 0x1F then .ofAscii "\\u00" ++ [hexDigit (b.toNat / 16), hexDigit (b.toNat % 16)]
  else [b]

def dumpString (s : Bytes) : Except Exn Bytes :=
  if Utf8.check s then .ok (0x22 :: s.flatMap escape ++ [0x22]) else .error .type

section
variable (num : Rat → Bytes)

mutual

def dump : Json → Except Exn Bytes
  | .null => .ok (.ofAscii "null")
  | .bool b => .ok (.ofAscii (if b then "true" else "false"))
  | .int i => .ok (.ofAscii (toString i))
  | .float x => .ok (num x)
  | .str s => dumpString s
  | .arr items => do
    let items ← dumpItems items
    return 0x5B :: (items.intersperse [0x2C]).flatten ++ [0x5D]
  | .obj fields => do
    let fields ← dumpFields fields
    return 0x7B :: (fields.intersperse [0x2C]).flatten ++ [0x7D]

def dumpItems : List Json → Except Exn (List Bytes)
  | [] => .ok []
  | j :: rest => do
    let text ← dump j
    return text :: (← dumpItems rest)

def dumpFields : List (Bytes × Json) → Except Exn (List Bytes)
  | [] => .ok []
  | (key, j) :: rest => do
    let key ← dumpString key
    let text ← dump j
    return (key ++ 0x3A :: text) :: (← dumpFields rest)

end

end

end Json

end Mlxforge
