import Mlxforge.Json.Value
import Mlxforge.Sample.JsonText

/-!
The values that JSON texts stand for: the grammar of RFC 8259 with the value of every part. An object keeps its members
ordered by key, and the last member where a key is given twice.
-/

namespace Mlxforge.Json

open Ascii
open String (utf8EncodeChar)

/-! ### Strings -/

def hexValue (b : UInt8) : Option Nat :=
  if isDigit b then some (b.toNat - 0x30)
  else if 0x61 ≤ b ∧ b ≤ 0x66 then some (b.toNat - 0x57)
  else if 0x41 ≤ b ∧ b ≤ 0x46 then some (b.toNat - 0x37)
  else none

/-- Four hexadecimal digits, and what is left. -/
def codeUnit : Bytes → Option (Nat × Bytes)
  | a :: b :: c :: d :: s => do
    let a ← hexValue a
    let b ← hexValue b
    let c ← hexValue c
    let d ← hexValue d
    return (((a * 16 + b) * 16 + c) * 16 + d, s)
  | _ => none

/-- The character behind `\u`; one beyond the basic plane is written as two surrogates. -/
def unicodeEscape (s : Bytes) : Option (Bytes × Bytes) := do
  let (high, s) ← codeUnit s
  if 0xD800 ≤ high ∧ high ≤ 0xDBFF then
    match s with
    | a :: b :: s =>
      if a = backslash ∧ b = 0x75 then do
        let (low, s) ← codeUnit s
        if 0xDC00 ≤ low ∧ low ≤ 0xDFFF then
          some (utf8EncodeChar (.ofNat (0x10000 + (high - 0xD800) * 0x400 + (low - 0xDC00))), s)
        else none
      else none
    | _ => none
  else if 0xDC00 ≤ high ∧ high ≤ 0xDFFF then none
  else some (utf8EncodeChar (.ofNat high), s)

/-- The byte that an escape of one letter stands for. -/
def letterEscape (b : UInt8) : Option UInt8 :=
  if b = quote ∨ b = backslash ∨ b = 0x2F then some b
  else if b = 0x62 then some 0x08
  else if b = 0x66 then some 0x0C
  else if b = 0x6E then some 0x0A
  else if b = 0x72 then some 0x0D
  else if b = 0x74 then some 0x09
  else none

/-- One step inside a string, and what is left behind it. -/
def readChar : Bytes → Option (Bytes × Bytes)
  | [] => none
  | b :: s =>
    if b = backslash then
      match s with
      | [] => none
      | e :: s => if e = 0x75 then unicodeEscape s else (letterEscape e).map fun b => ([b], s)
    else if 0x20 ≤ b ∧ b ≠ quote then some ([b], s)
    else none

/-- The inside of a string, and the bytes it stands for. -/
inductive Chars : Bytes → Bytes → Prop where
  | nil : Chars [] []
  | cons {u t b s : Bytes} (h : readChar u = some (b, [])) (ht : Chars t s) : Chars (u ++ t) (b ++ s)

/-! ### Numbers -/

def digitsValue (ds : Bytes) : Nat := ds.foldl (fun n b => 10 * n + (b.toNat - 0x30)) 0

/-- The value of a text without fraction and exponent. -/
def intValue : Bytes → Option Int
  | [] => none
  | b :: ds =>
    if b = minus then if ds.all isDigit then some (-(digitsValue ds : Int)) else none
    else if (b :: ds).all isDigit then some (digitsValue (b :: ds))
    else none

/-- The integers that `int64_t` or `uint64_t` holds. -/
def InRange (i : Int) : Prop := -2 ^ 63 ≤ i ∧ i < 2 ^ 64

instance (i : Int) : Decidable (InRange i) := inferInstanceAs (Decidable (_ ∧ _))

section
variable (float : Bytes → Option Rat)

/-- An integer in range, or a `double`; one that is too large has no value. -/
def numberValue (t : Bytes) : Option Json :=
  match intValue t with
  | some i => if InRange i then some (.int i) else (float t).map .float
  | none => (float t).map .float

/-! ### Objects -/

/-- `object[key] = v`. -/
def insertField (key : Bytes) (v : Json) : List (Bytes × Json) → List (Bytes × Json)
  | [] => [(key, v)]
  | (k, x) :: rest =>
    if key = k then (key, v) :: rest
    else if key < k then (key, v) :: (k, x) :: rest
    else (k, x) :: insertField key v rest

def storeFields (members : List (Bytes × Json)) : List (Bytes × Json) :=
  members.foldl (fun fields m => insertField m.1 m.2 fields) []

/-! ### Values -/

def Blank (w : Bytes) : Prop := ∀ b ∈ w, isWs b = true

/-- What a part of a text stands for. -/
inductive Content where
  | value (v : Json)
  | elements (vs : List Json)
  | members (ms : List (Bytes × Json))

inductive Reads : Bytes → Content → Prop where
  | null : Reads (.ofAscii "null") (.value .null)
  | bool (b : Bool) : Reads (.ofAscii (if b then "true" else "false")) (.value (.bool b))
  | number {t : Bytes} {v : Json} (ht : t ∈ JsonText.number) (hv : numberValue float t = some v) : Reads t (.value v)
  | str {t s : Bytes} (h : Chars t s) : Reads (quote :: (t ++ [quote])) (.value (.str s))
  | emptyArray {w : Bytes} (hw : Blank w) : Reads (openBracket :: (w ++ [closeBracket])) (.value (.arr []))
  | array {s : Bytes} {vs : List Json} (hs : Reads s (.elements vs)) :
      Reads (openBracket :: (s ++ [closeBracket])) (.value (.arr vs))
  | emptyObject {w : Bytes} (hw : Blank w) : Reads (openBrace :: (w ++ [closeBrace])) (.value (.obj []))
  | object {s : Bytes} {ms : List (Bytes × Json)} (hs : Reads s (.members ms)) :
      Reads (openBrace :: (s ++ [closeBrace])) (.value (.obj (storeFields ms)))
  | element {w t w' : Bytes} {v : Json} (hw : Blank w) (hv : Reads t (.value v)) (hw' : Blank w') :
      Reads (w ++ (t ++ w')) (.elements [v])
  | elements {w t w' s : Bytes} {v : Json} {vs : List Json} (hw : Blank w) (hv : Reads t (.value v)) (hw' : Blank w')
      (hs : Reads s (.elements vs)) : Reads (w ++ (t ++ (w' ++ comma :: s))) (.elements (v :: vs))
  | member {w k key w₁ w₂ t w₃ : Bytes} {v : Json} (hw : Blank w) (hk : Chars k key) (hw₁ : Blank w₁) (hw₂ : Blank w₂)
      (hv : Reads t (.value v)) (hw₃ : Blank w₃) :
      Reads (w ++ quote :: (k ++ quote :: (w₁ ++ colon :: (w₂ ++ (t ++ w₃))))) (.members [(key, v)])
  | members {w k key w₁ w₂ t w₃ s : Bytes} {v : Json} {ms : List (Bytes × Json)} (hw : Blank w) (hk : Chars k key)
      (hw₁ : Blank w₁) (hw₂ : Blank w₂) (hv : Reads t (.value v)) (hw₃ : Blank w₃) (hs : Reads s (.members ms)) :
      Reads (w ++ quote :: (k ++ quote :: (w₁ ++ colon :: (w₂ ++ (t ++ (w₃ ++ comma :: s))))))
        (.members ((key, v) :: ms))

/-- The byte order mark, which a text may start with. -/
def bom : Bytes := [0xEF, 0xBB, 0xBF]

/-- The texts of a value: UTF-8, with blanks around the value. -/
def Document (s : Bytes) (v : Json) : Prop :=
  Utf8.check s = true ∧ ∃ m w t w', (m = [] ∨ m = bom) ∧ Blank w ∧ Reads float t (.value v) ∧ Blank w' ∧
    s = m ++ (w ++ (t ++ w'))

/-- The values that a variable of the library's type holds. -/
inductive Stored : Json → Prop where
  | null : Stored .null
  | bool (b : Bool) : Stored (.bool b)
  | int {i : Int} (h : InRange i) : Stored (.int i)
  | float {x : Rat} {t : Bytes} (h : float t = some x) : Stored (.float x)
  | str (s : Bytes) : Stored (.str s)
  | arr {items : List Json} (h : ∀ v ∈ items, Stored v) : Stored (.arr items)
  | obj {fields : List (Bytes × Json)} (keys : fields.Pairwise (·.1 < ·.1)) (h : ∀ f ∈ fields, Stored f.2) :
      Stored (.obj fields)

end

end Mlxforge.Json
