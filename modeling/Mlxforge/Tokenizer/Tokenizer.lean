import Mlxforge.Tokenizer.Spm

/-!
The tokenizer over its two backends, and the streaming detokenizer.
-/

namespace Mlxforge

/-- The backend that the factories choose. -/
inductive EncoderBackend where
  | bpe (t : BpeTokenizer)
  | spm (t : SpmBpeTokenizer)

namespace EncoderBackend

def decode : EncoderBackend → List Int → Bytes
  | .bpe t, ids => t.decode ids
  | .spm t, ids => t.decode ids

def specialIds : EncoderBackend → List Int
  | .bpe t => t.specialIds
  | .spm t => t.specialIds

def decodeId : EncoderBackend → Int → Bytes
  | .bpe t, id => t.decodeId id
  | .spm t, id => t.decodeId id

theorem decode_eq (impl : EncoderBackend) (ids : List Int) : impl.decode ids = ids.flatMap impl.decodeId := by
  cases impl with
  | bpe t => rfl
  | spm t => exact t.decode_eq ids

end EncoderBackend

inductive ChatFormat where
  | llama3 | qwen3 | qwen35
  deriving DecidableEq, Repr

/-- `Tokenizer::Message`. -/
structure Message where
  role : Bytes
  content : Bytes
  /-- The rendered call of an assistant turn that called a tool. -/
  toolCall : Bytes := []
  /-- One entry per image: its number of placeholder tokens. -/
  imageTokenCounts : List Int := []
  deriving DecidableEq, Repr

structure Tokenizer where
  impl : EncoderBackend
  /-- Put before what is encoded; `-1` for none. -/
  bosId : Int := 128000
  chatFormat : ChatFormat := .llama3

namespace Tokenizer

variable (tok : Tokenizer)

def decode (ids : List Int) : Bytes := tok.impl.decode (ids.filter fun id => !tok.impl.specialIds.contains id)

/-- The bytes of one token. -/
def tokenText (id : Int) : Bytes := if tok.impl.specialIds.contains id then [] else tok.impl.decodeId id

theorem decode_eq (ids : List Int) : tok.decode ids = ids.flatMap tok.tokenText := by
  rw [decode, EncoderBackend.decode_eq]
  induction ids with
  | nil => rfl
  | cons id ids ih =>
    rw [List.filter_cons, List.flatMap_cons, tokenText, ← ih]
    cases h : tok.impl.specialIds.contains id with
    | true => simp
    | false => simp

@[simp] theorem decode_nil : tok.decode [] = [] := by rw [decode_eq]; rfl

@[simp] theorem decode_append (ids ids' : List Int) : tok.decode (ids ++ ids') = tok.decode ids ++ tok.decode ids' := by
  rw [decode_eq, decode_eq, decode_eq, List.flatMap_append]

theorem decode_cons (id : Int) (ids : List Int) : tok.decode (id :: ids) = tok.decode [id] ++ tok.decode ids :=
  tok.decode_append [id] ids

theorem decode_singleton (id : Int) : tok.decode [id] = tok.tokenText id := by
  rw [decode_eq, List.flatMap_singleton]

end Tokenizer

end Mlxforge
