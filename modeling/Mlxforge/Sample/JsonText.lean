import Mlxforge.Lib.FirstSymbol
import Mlxforge.Sample.JsonGrammar

/-!
JSON texts: the grammar of RFC 8259 over bytes, with or without whitespace around the structural characters. A string
may hold any byte from `0x20` on except the quote and the backslash.
-/

namespace Mlxforge.JsonText

open Ascii Language
open scoped Computability

def digits : Language UInt8 := symbols (isDigit ·) * (symbols (isDigit ·))∗

def exponent : Language UInt8 := (1 + word [plus] + word [minus]) * digits

def frac : Language UInt8 := 1 + word [dot] * digits

def exp : Language UInt8 := 1 + symbols (isExp ·) * exponent

/-- `zero / ( digit1-9 *DIGIT )` -/
def int : Language UInt8 := word [zero] + symbols (fun b => 0x31 ≤ b ∧ b ≤ 0x39) * (symbols (isDigit ·))∗

def number : Language UInt8 := (1 + word [minus]) * (int * (frac * exp))

/-- What may follow a backslash. -/
def escaped : Language UInt8 := symbols (isEscape ·) + word [0x75] * symbols (isHex ·) ^ 4

def chars : Language UInt8 :=
  (symbols (fun b => 0x20 ≤ b ∧ b ≠ quote ∧ b ≠ backslash) + word [backslash] * escaped)∗

def string : Language UInt8 := word [quote] * (chars * word [quote])

def literal : Language UInt8 := word (Bytes.ofAscii "true") + word (Bytes.ofAscii "false") + word (Bytes.ofAscii "null")

section
variable (allowWs : Bool)

/-- Whitespace between tokens. -/
def ws : Language UInt8 := if allowWs then (symbols (isWs ·))∗ else 1

inductive Part where
  | value | elements | members

/-- The texts of a value, and of the inside of an array and of an object that are not empty. -/
inductive Derives : Part → Bytes → Prop where
  | scalar {s : Bytes} (h : s ∈ string + number + literal) : Derives .value s
  | emptyArray {w : Bytes} (hw : w ∈ ws allowWs) : Derives .value (openBracket :: (w ++ [closeBracket]))
  | array {s : Bytes} (hs : Derives .elements s) : Derives .value (openBracket :: (s ++ [closeBracket]))
  | emptyObject {w : Bytes} (hw : w ∈ ws allowWs) : Derives .value (openBrace :: (w ++ [closeBrace]))
  | object {s : Bytes} (hs : Derives .members s) : Derives .value (openBrace :: (s ++ [closeBrace]))
  | element {w v w' : Bytes} (hw : w ∈ ws allowWs) (hv : Derives .value v) (hw' : w' ∈ ws allowWs) :
      Derives .elements (w ++ (v ++ w'))
  | elements {w v w' s : Bytes} (hw : w ∈ ws allowWs) (hv : Derives .value v) (hw' : w' ∈ ws allowWs)
      (hs : Derives .elements s) : Derives .elements (w ++ (v ++ (w' ++ comma :: s)))
  | member {w k w₁ w₂ v w₃ : Bytes} (hw : w ∈ ws allowWs) (hk : k ∈ string) (hw₁ : w₁ ∈ ws allowWs)
      (hw₂ : w₂ ∈ ws allowWs) (hv : Derives .value v) (hw₃ : w₃ ∈ ws allowWs) :
      Derives .members (w ++ (k ++ (w₁ ++ colon :: (w₂ ++ (v ++ w₃)))))
  | members {w k w₁ w₂ v w₃ s : Bytes} (hw : w ∈ ws allowWs) (hk : k ∈ string) (hw₁ : w₁ ∈ ws allowWs)
      (hw₂ : w₂ ∈ ws allowWs) (hv : Derives .value v) (hw₃ : w₃ ∈ ws allowWs) (hs : Derives .members s) :
      Derives .members (w ++ (k ++ (w₁ ++ colon :: (w₂ ++ (v ++ (w₃ ++ comma :: s))))))

def value : Language UInt8 := {s | Derives allowWs .value s}

def elements : Language UInt8 := {s | Derives allowWs .elements s}

def members : Language UInt8 := {s | Derives allowWs .members s}

def document : Language UInt8 := ws allowWs * (value allowWs * ws allowWs)

/-! ### The grammar as equations -/

variable {allowWs}

theorem value_eq : value allowWs = string + number + literal +
    word [openBracket] * ((ws allowWs + elements allowWs) * word [closeBracket]) +
    word [openBrace] * ((ws allowWs + members allowWs) * word [closeBrace]) := by
  ext s
  constructor
  · intro h
    cases h with
    | scalar h => exact .inl (.inl h)
    | emptyArray hw => exact .inl (.inr ⟨[openBracket], rfl, _, append_mem_mul (.inl hw) rfl, rfl⟩)
    | array hs => exact .inl (.inr ⟨[openBracket], rfl, _, append_mem_mul (.inr hs) rfl, rfl⟩)
    | emptyObject hw => exact .inr ⟨[openBrace], rfl, _, append_mem_mul (.inl hw) rfl, rfl⟩
    | object hs => exact .inr ⟨[openBrace], rfl, _, append_mem_mul (.inr hs) rfl, rfl⟩
  · rintro ((h | ⟨_, rfl, _, ⟨s, hw | hs, _, rfl, rfl⟩, rfl⟩) | ⟨_, rfl, _, ⟨s, hw | hs, _, rfl, rfl⟩, rfl⟩)
    · exact .scalar h
    · exact .emptyArray hw
    · exact .array hs
    · exact .emptyObject hw
    · exact .object hs

theorem elements_eq : elements allowWs =
    ws allowWs * (value allowWs * (ws allowWs * (1 + word [comma] * elements allowWs))) := by
  ext s
  constructor
  · intro h
    cases h with
    | @element w v w' hw hv hw' =>
      exact append_mem_mul hw (append_mem_mul hv ⟨w', hw', [], .inl rfl, List.append_nil w'⟩)
    | elements hw hv hw' hs =>
      exact append_mem_mul hw (append_mem_mul hv (append_mem_mul hw' (.inr ⟨[comma], rfl, _, hs, rfl⟩)))
  · rintro ⟨w, hw, _, ⟨v, hv, _, ⟨w', hw', _, rfl | ⟨_, rfl, s, hs, rfl⟩, rfl⟩, rfl⟩, rfl⟩
    · simp only [List.append_nil]
      exact .element hw hv hw'
    · simp only [List.singleton_append]
      exact .elements hw hv hw' hs

theorem members_eq : members allowWs =
    ws allowWs * (string * (ws allowWs * (word [colon] * (ws allowWs * (value allowWs *
      (ws allowWs * (1 + word [comma] * members allowWs))))))) := by
  ext s
  constructor
  · intro h
    cases h with
    | @member w k w₁ w₂ v w₃ hw hk hw₁ hw₂ hv hw₃ =>
      exact append_mem_mul hw (append_mem_mul hk (append_mem_mul hw₁ ⟨[colon], rfl, _,
        append_mem_mul hw₂ (append_mem_mul hv ⟨w₃, hw₃, [], .inl rfl, List.append_nil w₃⟩), rfl⟩))
    | members hw hk hw₁ hw₂ hv hw₃ hs =>
      exact append_mem_mul hw (append_mem_mul hk (append_mem_mul hw₁ ⟨[colon], rfl, _, append_mem_mul hw₂
        (append_mem_mul hv (append_mem_mul hw₃ (.inr ⟨[comma], rfl, _, hs, rfl⟩))), rfl⟩))
  · rintro ⟨w, hw, _, ⟨k, hk, _, ⟨w₁, hw₁, _, ⟨_, rfl, _, ⟨w₂, hw₂, _, ⟨v, hv, _,
      ⟨w₃, hw₃, _, rfl | ⟨_, rfl, s, hs, rfl⟩, rfl⟩, rfl⟩, rfl⟩, rfl⟩, rfl⟩, rfl⟩, rfl⟩
    · simp only [List.append_nil, List.singleton_append]
      exact .member hw hk hw₁ hw₂ hv hw₃
    · simp only [List.singleton_append]
      exact .members hw hk hw₁ hw₂ hv hw₃ hs

end

end Mlxforge.JsonText
