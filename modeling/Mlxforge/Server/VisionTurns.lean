import Mlxforge.Server.FrontEnds
import Mlxforge.Tokenizer.MarkerScan

/-!
The vision blocks of a rendered prompt, turn by turn. The texts of a turn stand between brackets or line ends of the
template, so no marker comes about where two of them meet.
-/

namespace Mlxforge

def visionText : Markers UInt8
  | .start => ascii "<|vision_start|>"
  | .pad => ascii "<|image_pad|>"
  | .stop => ascii "<|vision_end|>"

namespace VisionText

theorem ne_nil (k : Marker) : visionText k ≠ [] := by
  cases k <;> decide

/-- The brackets of a marker stand at its ends, and it is a single line. -/
theorem brackets (k : Marker) : (∀ c ∈ (visionText k).dropLast, ¬(c = 0x3E ∨ c = 0x0A)) ∧
    ∀ c ∈ (visionText k).tail, ¬(c = 0x3C ∨ c = 0x0A) := by
  cases k <;> decide +kernel

variable {xs ys : Bytes}

theorem apart_of_back (back : ∀ c ∈ xs.getLast?, c = 0x3E ∨ c = 0x0A) : visionText.Apart xs ys := by
  intro k a b some_a some_b suffix _ same
  obtain ⟨front, rfl⟩ := suffix
  have last := List.getLast?_eq_some_getLast some_a
  rw [List.getLast?_append_of_ne_nil _ some_a, last] at back
  refine (brackets k).1 (a.getLast some_a) ?_ (back _ rfl)
  rw [← same, List.dropLast_append_of_ne_nil some_b]
  exact List.mem_append_left _ (List.getLast_mem some_a)

theorem apart_of_front (front : ∀ c ∈ ys.head?, c = 0x3C ∨ c = 0x0A) : visionText.Apart xs ys := by
  intro k a b some_a some_b _ prefixed same
  obtain ⟨back, rfl⟩ := prefixed
  have first := List.head?_eq_some_head some_b
  rw [List.head?_append_of_ne_nil _ some_b, first] at front
  refine (brackets k).2 (b.head some_b) ?_ (front _ rfl)
  rw [← same, List.tail_append_of_ne_nil some_a]
  exact List.mem_append_right _ (List.head_mem some_b)

/-- Text with the given blocks, no marker under way at its ends. -/
structure Segment (text : Bytes) (counts : List Nat) : Prop where
  blocks : visionText.Blocks text counts
  front : ∀ c ∈ text.head?, c = 0x3C ∨ c = 0x0A
  back : ∀ c ∈ text.getLast?, c = 0x3E ∨ c = 0x0A

variable {text text' : Bytes} {counts counts' : List Nat}

theorem segment_nil : Segment [] [] where
  blocks := .free (Markers.free_nil ne_nil)
  front := by simp
  back := by simp

theorem Segment.append (left : Segment text counts) (right : Segment text' counts') :
    Segment (text ++ text') (counts ++ counts') where
  blocks := left.blocks.append right.blocks (apart_of_back left.back)
  front := by
    intro c first
    rcases List.eq_nil_or_concat text with rfl | ⟨_, _, rfl⟩
    · exact right.front c first
    · rw [List.head?_append_of_ne_nil _ (by simp)] at first
      exact left.front c first
  back := by
    intro c last
    rcases List.eq_nil_or_concat text' with rfl | ⟨_, _, rfl⟩
    · rw [List.append_nil] at last
      exact left.back c last
    · rw [List.getLast?_append_of_ne_nil _ (by simp)] at last
      exact right.back c last

/-- Text of the caller between two segments. -/
theorem Segment.around (left : Segment text counts) (right : Segment text' counts') (some_left : text ≠ [])
    (some_right : text' ≠ []) (clean : visionText.Free xs) : Segment (text ++ xs ++ text') (counts ++ counts') where
  blocks := by
    have inner := left.blocks.append (.free clean) (apart_of_back left.back)
    rw [List.append_nil] at inner
    exact inner.append right.blocks (apart_of_front right.front)
  front := by
    rw [List.append_assoc, List.head?_append_of_ne_nil _ some_left]
    exact left.front
  back := by
    rw [List.getLast?_append_of_ne_nil _ some_right]
    exact right.back

theorem Segment.flatten {texts : List Bytes} {counts : List (List Nat)} (each : List.Forall₂ Segment texts counts) :
    Segment texts.flatten counts.flatten := by
  induction each with
  | nil => exact segment_nil
  | cons segment _ ih => exact segment.append ih

/-- Text of the template. -/
theorem segment_of_template (text : Bytes) (clean : ∀ k ∈ [Marker.start, .pad, .stop], ¬visionText k <:+: text)
    (edges : (∀ c ∈ text.head?, c = 0x3C ∨ c = 0x0A) ∧ ∀ c ∈ text.getLast?, c = 0x3E ∨ c = 0x0A) : Segment text [] where
  blocks := .free fun k => clean k (by cases k <;> simp)
  front := edges.1
  back := edges.2

theorem segment_block (n : Nat) : Segment (visionText.block n) [n] where
  blocks := Markers.blocks_block ne_nil n
  front := by
    rw [Markers.block, List.append_assoc, List.head?_append_of_ne_nil _ (ne_nil .start)]
    decide +kernel
  back := by
    rw [Markers.block, List.getLast?_append_of_ne_nil _ (ne_nil .stop)]
    decide +kernel

theorem visionBlocks_segment (m : Message) : Segment (visionBlocks m) (m.imageTokenCounts.map Int.toNat) := by
  unfold visionBlocks
  induction m.imageTokenCounts with
  | nil => exact segment_nil
  | cons count counts ih => exact (segment_block count.toNat).append ih

end VisionText

/-! ### Turns -/

/-- What the template makes of one turn. -/
def turnText (afterTool lastTool : Bool) (m : Message) : Bytes :=
  if m.role = ascii "tool" then
    (if afterTool then [] else ascii "<|im_start|>user") ++ ascii "\n<tool_response>\n" ++ m.content ++
      ascii "\n</tool_response>" ++ (if lastTool then ascii "<|im_end|>\n" else [])
  else if m.role = ascii "assistant" then
    ascii "<|im_start|>assistant\n" ++ m.content ++
      (if m.toolCall ≠ [] then ascii "\n<tool_call>\n" ++ m.toolCall ++ ascii "\n</tool_call>" else []) ++
      ascii "<|im_end|>\n"
  else
    ascii "<|im_start|>" ++ m.role ++ ascii "\n" ++ visionBlocks m ++ m.content ++ ascii "<|im_end|>\n"

def turnTexts : (afterTool : Bool) → List Message → List Bytes
  | _, [] => []
  | afterTool, m :: rest =>
    turnText afterTool (rest.head?.all fun next => decide (next.role ≠ ascii "tool")) m ::
      turnTexts (decide (m.role = ascii "tool")) rest

theorem qwen3Turns_eq (afterTool : Bool) (messages : List Message) :
    qwen3Turns afterTool messages = (turnTexts afterTool messages).flatten := by
  induction messages generalizing afterTool with
  | nil => rfl
  | cons m rest ih =>
    rw [qwen3Turns, turnTexts, turnText, List.flatten_cons, ← ih]
    by_cases tool : m.role = ascii "tool"
    · simp only [tool, if_true, decide_true]
    · by_cases assistant : m.role = ascii "assistant"
      · simp only [if_pos assistant, tool, if_false, decide_false]
      · simp only [if_neg assistant, tool, if_false, decide_false, List.append_assoc]

/-- The texts that the caller puts in a turn hold no marker. -/
structure Message.Unmarked (m : Message) : Prop where
  role : visionText.Free m.role
  content : visionText.Free m.content
  toolCall : visionText.Free m.toolCall

/-- The lengths of the placeholder runs of a turn. -/
def Message.runs (m : Message) : List Nat :=
  if FrontEnds.rendersImages m then m.imageTokenCounts.map Int.toNat else []

namespace VisionText

theorem closing_segment : Segment (ascii "<|im_end|>\n") [] := segment_of_template _ (by decide +kernel) (by decide +kernel)

/-- A tool result, in a user turn of its own or in the one before. -/
theorem toolText_segment {m : Message} (unmarked : m.Unmarked) (afterTool lastTool : Bool) :
    Segment ((if afterTool then [] else ascii "<|im_start|>user") ++ ascii "\n<tool_response>\n" ++ m.content ++
      ascii "\n</tool_response>" ++ (if lastTool then ascii "<|im_end|>\n" else [])) [] := by
  have inside : Segment (ascii "\n<tool_response>\n") [] :=
    segment_of_template _ (by decide +kernel) (by decide +kernel)
  have user : Segment (ascii "<|im_start|>user\n<tool_response>\n") [] :=
    segment_of_template _ (by decide +kernel) (by decide +kernel)
  have ending : Segment (ascii "\n</tool_response>") [] := segment_of_template _ (by decide +kernel) (by decide +kernel)
  have result : Segment ((if afterTool then [] else ascii "<|im_start|>user") ++ ascii "\n<tool_response>\n" ++ m.content ++
      ascii "\n</tool_response>") [] := by
    cases afterTool with
    | true => exact inside.around ending (by decide) (by decide) unmarked.content
    | false => exact user.around ending (by decide) (by decide) unmarked.content
  cases lastTool with
  | true => exact result.append closing_segment
  | false => exact result.append segment_nil

theorem assistantText_segment {m : Message} (unmarked : m.Unmarked) :
    Segment (ascii "<|im_start|>assistant\n" ++ m.content ++
      (if m.toolCall ≠ [] then ascii "\n<tool_call>\n" ++ m.toolCall ++ ascii "\n</tool_call>" else []) ++
      ascii "<|im_end|>\n") [] := by
  have header : Segment (ascii "<|im_start|>assistant\n") [] :=
    segment_of_template _ (by decide +kernel) (by decide +kernel)
  split
  · have opening : Segment (ascii "\n<tool_call>\n") [] := segment_of_template _ (by decide +kernel) (by decide +kernel)
    have ending : Segment (ascii "\n</tool_call>") [] := segment_of_template _ (by decide +kernel) (by decide +kernel)
    have call := opening.around ending (by decide) (by decide) unmarked.toolCall
    exact (header.around call (by decide) (by simp [ascii, Bytes.ofAscii]) unmarked.content).append closing_segment
  · rw [List.append_nil]
    exact header.around closing_segment (by decide) (by decide) unmarked.content

/-- Any other turn, with its images ahead of its text. -/
theorem userText_segment {m : Message} (unmarked : m.Unmarked) :
    Segment (ascii "<|im_start|>" ++ m.role ++ ascii "\n" ++ visionBlocks m ++ m.content ++ ascii "<|im_end|>\n")
      (m.imageTokenCounts.map Int.toNat) := by
  have opening : Segment (ascii "<|im_start|>") [] := segment_of_template _ (by decide +kernel) (by decide +kernel)
  have line : Segment (ascii "\n") [] := segment_of_template _ (by decide +kernel) (by decide +kernel)
  have header := opening.around line (by decide) (by decide) unmarked.role
  have turn := (header.append (visionBlocks_segment m)).around closing_segment (by simp [ascii, Bytes.ofAscii]) (by decide)
    unmarked.content
  rwa [List.append_nil] at turn

theorem turnText_segment {m : Message} (unmarked : m.Unmarked) (afterTool lastTool : Bool) :
    Segment (turnText afterTool lastTool m) m.runs := by
  unfold turnText
  by_cases tool : m.role = ascii "tool"
  · have silent : m.runs = [] := if_neg (by simp [FrontEnds.rendersImages, tool])
    rw [if_pos tool, silent]
    exact toolText_segment unmarked afterTool lastTool
  · rw [if_neg tool]
    by_cases assistant : m.role = ascii "assistant"
    · have silent : m.runs = [] := if_neg (by simp [FrontEnds.rendersImages, assistant])
      rw [if_pos assistant, silent]
      exact assistantText_segment unmarked
    · have shown : m.runs = m.imageTokenCounts.map Int.toNat :=
        if_pos (by simp [FrontEnds.rendersImages, tool, assistant])
      rw [if_neg assistant, shown]
      exact userText_segment unmarked

theorem turnTexts_segments {messages : List Message} (unmarked : ∀ m ∈ messages, m.Unmarked) (afterTool : Bool) :
    List.Forall₂ Segment (turnTexts afterTool messages) (messages.map Message.runs) := by
  induction messages generalizing afterTool with
  | nil => exact .nil
  | cons m rest ih =>
    exact .cons (turnText_segment (unmarked m (by simp)) afterTool _) (ih (fun m member => unmarked m (.tail _ member)) _)

end VisionText

/-! ### The whole prompt -/

/-- The text of each message, a leading system turn included. -/
def promptTexts : List Message → List Bytes
  | [] => []
  | m :: rest =>
    if m.role = ascii "system" then (ascii "<|im_start|>system\n" ++ m.content ++ ascii "<|im_end|>\n") :: turnTexts false rest
    else turnTexts false (m :: rest)

/-- The header of the answer. -/
def generationText (openThink enableThinking : Bool) : Bytes :=
  ascii "<|im_start|>assistant\n" ++
    (if !enableThinking then ascii "<think>\n\n</think>\n\n" else if openThink then ascii "<think>\n" else [])

theorem renderQwen3_eq (messages : List Message) (enableThinking openThink : Bool) :
    renderQwen3 messages true enableThinking [] openThink =
      (promptTexts messages).flatten ++ generationText openThink enableThinking := by
  unfold renderQwen3 promptTexts qwen3System
  cases messages with
  | nil => simp [qwen3Turns, generationText]
  | cons m rest =>
    by_cases system : m.role = ascii "system"
    · simp [system, qwen3Turns_eq, generationText]
    · simp [system, qwen3Turns_eq, generationText]

namespace VisionText

theorem generationText_segment (openThink enableThinking : Bool) : Segment (generationText openThink enableThinking) [] := by
  cases openThink <;> cases enableThinking <;> exact segment_of_template _ (by decide +kernel) (by decide +kernel)

/-- A leading system turn renders no images. -/
theorem promptTexts_segments {messages : List Message} (unmarked : ∀ m ∈ messages, m.Unmarked)
    (silent : ∀ m ∈ messages.head?, m.role = ascii "system" → m.imageTokenCounts = []) :
    List.Forall₂ Segment (promptTexts messages) (messages.map Message.runs) := by
  cases messages with
  | nil => exact .nil
  | cons m rest =>
    rw [promptTexts]
    split_ifs with system
    · have opening : Segment (ascii "<|im_start|>system\n") [] :=
        segment_of_template _ (by decide +kernel) (by decide +kernel)
      have none : m.runs = [] := by simp [Message.runs, silent m rfl system]
      rw [List.map_cons, none]
      exact .cons (opening.around closing_segment (by decide) (by decide) (unmarked m (by simp)).content)
        (turnTexts_segments (fun m member => unmarked m (.tail _ member)) false)
    · exact turnTexts_segments unmarked false

end VisionText

end Mlxforge
