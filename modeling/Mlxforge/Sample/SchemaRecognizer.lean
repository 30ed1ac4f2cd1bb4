import Mlxforge.Sample.SchemaMembers

/-!
The grammar compiled from a schema recognises the schema's objects: the places it can be in, each with the texts that
end a document from there, and what one byte does to them.
-/

namespace Mlxforge

open Ascii Language JsonText
open scoped Computability

namespace JsonGrammar

variable {g : JsonGrammar} {b : UInt8} {members rest : List (Bytes × ValueType)} {i : Nat} {stack : List Container}
  {key : Bytes} {t : ValueType} {l m : Language UInt8}

/-- In the schema's object, with nothing else open. -/
structure Between (members : List (Bytes × ValueType)) (i : Nat) (expect : Expect) (g : JsonGrammar) : Prop where
  guided : Guided members i g
  expect : g.expect = expect
  idle : g.scalar = .none
  opened : g.stack = [.object]
  key : g.readingKey = false

/-- What is left of a number that may be bound to be an integer. -/
def numRest (intOnly : Bool) (num : Num) : Language UInt8 :=
  match intOnly, num with
  | true, .sign => int
  | true, .intZero => 1
  | true, .intDigits => (symbols (isDigit ·))∗
  | _, num => numberRest num

def Integral (num : Num) : Prop := num = .sign ∨ num = .intZero ∨ num = .intDigits

/-- Where the grammar is, and the texts that end the document from there. -/
inductive At (members : List (Bytes × ValueType)) : JsonGrammar → Language UInt8 → Prop where
  | start {g : JsonGrammar} (guided : Guided members 0 g) (expect : g.expect = .value) (idle : g.scalar = .none)
      (opened : g.stack = []) (key : g.readingKey = false) (free : g.pendingType = .free) : At members g (schemaText members)
  | first {g : JsonGrammar} (between : Between members 0 .objectKeyOrEnd g) : At members g (membersText members)
  | key {g : JsonGrammar} {i : Nat} {m : Bytes × ValueType} {rest : List (Bytes × ValueType)}
      (between : Between members i .objectKey g) (here : members.drop i = m :: rest) : At members g (membersText (m :: rest))
  | inKey {g : JsonGrammar} {i : Nat} {key left : Bytes} {t : ValueType} {rest : List (Bytes × ValueType)}
      (guided : Guided members i g) (goesOn : g.expect ≠ .finish) (string : g.scalar = .string) (reading : g.readingKey = true)
      (opened : g.stack = [.object]) (here : members.drop i = (key, t) :: rest) (read : key = g.curKey ++ left) :
      At members g (keyRest left * (word [colon] * (typed t * nextText rest)))
  | colon {g : JsonGrammar} {i : Nat} {m : Bytes × ValueType} {rest : List (Bytes × ValueType)}
      (between : Between members i .objectColon g) (here : members.drop i = m :: rest) (pending : g.pendingType = m.2) :
      At members g (word [colon] * (typed m.2 * nextText rest))
  | value {g : JsonGrammar} {i : Nat} {m : Bytes × ValueType} {rest : List (Bytes × ValueType)}
      (between : Between members i .value g) (here : members.drop i = m :: rest) (pending : g.pendingType = m.2) :
      At members g (typed m.2 * nextText rest)
  | within {g : JsonGrammar} {i : Nat} {m : Bytes × ValueType} {rest : List (Bytes × ValueType)} {stack : List Container}
      (guided : Guided members i g) (member : Member stack g) (plain : (g.within stack).Plain)
      (busy : g.scalar ≠ .none ∨ stack ≠ []) (inner : g.scalar = .number → stack ≠ []) (here : members.drop i = m :: rest) :
      At members g ((g.within stack).owed * nextText rest)
  | number {g : JsonGrammar} {i : Nat} {m : Bytes × ValueType} {rest : List (Bytes × ValueType)}
      (guided : Guided members i g) (goesOn : g.expect ≠ .finish) (number : g.scalar = .number) (opened : g.stack = [.object])
      (key : g.readingKey = false) (integral : g.numIntOnly = true → Integral g.num) (here : members.drop i = m :: rest) :
      At members g (numRest g.numIntOnly g.num * nextText rest)
  | next {g : JsonGrammar} {i : Nat} (between : Between members i .objectNext g) (inside : i ≤ members.length) :
      At members g (nextText (members.drop i))
  | finish {g : JsonGrammar} (expect : g.expect = .finish) (idle : g.scalar = .none) (compact : g.allowWs = false) :
      At members g 1

/-- One byte, refused just where no text starts with it. -/
def Steps (members : List (Bytes × ValueType)) (b : UInt8) (l : Language UInt8) (r : Bool × JsonGrammar) : Prop :=
  if r.1 then ∃ l', At members r.2 l' ∧ ∀ t, b :: t ∈ l ↔ t ∈ l' else ∀ t, b :: t ∉ l

theorem steps_refused (h : ∀ t, b :: t ∉ l) : Steps members b l (false, g) := h

theorem steps_taken {l' : Language UInt8} (at_ : At members g l') (h : ∀ t, b :: t ∈ l ↔ t ∈ l') : Steps members b l (true, g) :=
  ⟨l', at_, h⟩

/-- Whitespace is refused in compact mode, and is no structure. -/
theorem steps_between (compact : g.allowWs = false) (h : Steps members b l (g.structural b)) :
    Steps members b l (g.between b) := by
  unfold between
  split
  · rename_i space
    rw [compact]
    unfold Steps at h
    rw [structural_ws space] at h
    exact h
  · exact h

/-! ### Between the members -/

theorem Guided.member_at (guided : Guided members i g) (here : members.drop i = (key, t) :: rest) :
    g.keys.getD g.schemaKeyIdx [] = key ∧ g.types.getD g.schemaKeyIdx .free = t ∧ i < members.length ∧
      members.drop (i + 1) = rest := by
  have inside : i < members.length := by
    have count := congrArg List.length here
    rw [List.length_drop, List.length_cons] at count
    omega
  rw [List.drop_eq_getElem_cons inside] at here
  obtain ⟨entry, tail⟩ := List.cons.inj here
  rw [guided.keys, guided.types, guided.index]
  refine ⟨?_, ?_, inside, tail⟩
  · simp [inside, entry]
  · simp [inside, entry]

theorem atRoot_of_opened (guided : Guided members i g) (opened : g.stack = [.object]) : g.atRoot = true := by
  rw [atRoot, guided.schema, opened]
  rfl

theorem exhausted_iff (guided : Guided members i g) (opened : g.stack = [.object]) :
    g.schemaKeysExhausted = true ↔ members.drop i = [] := by
  rw [schemaKeysExhausted, atRoot_of_opened guided opened, guided.keys, guided.index, Bool.true_and, decide_eq_true_iff,
    List.length_map, List.drop_eq_nil_iff]

/-- The closing brace of the schema's object. -/
theorem close_steps (guided : Guided members i g) (opened : g.stack = [.object]) (idle : g.scalar = .none)
    (inside : i ≤ members.length) (nil : members.drop i = [] → ∀ t, closeBrace :: t ∈ l ↔ t ∈ (1 : Language UInt8))
    (cons : members.drop i ≠ [] → ∀ t, closeBrace :: t ∉ l) : Steps members closeBrace l g.closeObject := by
  have root := atRoot_of_opened guided opened
  have count : (g.schemaKeyIdx != g.keys.length) = true ↔ members.drop i ≠ [] := by
    rw [guided.index, guided.keys, List.length_map, bne_iff_ne, ne_eq, ne_eq, List.drop_eq_nil_iff]
    omega
  unfold closeObject
  rw [root, Bool.true_and]
  split
  · rename_i missing
    exact steps_refused (cons (count.mp missing))
  · rename_i all
    have none : members.drop i = [] := by
      by_contra some
      exact all (count.mpr some)
    have closed : g.closeContainer = { g with stack := [], expect := .finish } := by
      simp [closeContainer, opened, pushValueDone]
    rw [closed]
    exact steps_taken (.finish rfl idle guided.compact) (nil none)

/-- The quote before a key. -/
theorem start_key_steps (guided : Guided members i g) (goesOn : g.expect ≠ .finish) (opened : g.stack = [.object]) (here : members.drop i = (key, t) :: rest)
    (h : ∀ s, quote :: s ∈ l ↔ s ∈ keyRest key * (word [colon] * (typed t * nextText rest))) :
    Steps members quote l (true, g.startKey) :=
  steps_taken (.inKey ⟨guided.schema, guided.compact, guided.keys, guided.types, guided.index⟩ goesOn rfl rfl opened
    here (show key = [] ++ key from rfl)) h

theorem next_steps (between : Between members i .objectNext g) (inside : i ≤ members.length) :
    Steps members b (nextText (members.drop i)) (g.structural b) := by
  have guided := between.guided
  have exhausted := exhausted_iff guided between.opened
  unfold structural
  rw [between.expect]
  dsimp only
  split
  · rename_i comma
    subst comma
    split
    · rename_i all
      rw [exhausted.mp all]
      exact steps_refused fun t => by simp +decide [nextText, mem_word]
    · rename_i more
      obtain ⟨⟨key, t⟩, rest, here⟩ := List.exists_cons_of_ne_nil fun none => more (exhausted.mpr none)
      rw [here]
      refine steps_taken (.key ⟨⟨guided.schema, guided.compact, guided.keys, guided.types, guided.index⟩, rfl, between.idle,
        between.opened, between.key⟩ here) fun s => ?_
      rw [nextText, membersText, cons_mem_word_mul, word_nil, one_mul]
      simp
  · split
    · rename_i brace
      subst brace
      refine close_steps guided between.opened between.idle inside (fun none s => ?_) fun some s => ?_
      · rw [none, nextText, mem_word]
        simp
      · obtain ⟨⟨key, t⟩, rest, here⟩ := List.exists_cons_of_ne_nil some
        rw [here, nextText, cons_mem_word_mul]
        exact fun h => absurd h.1 (by decide)
    · rename_i notComma notBrace
      refine steps_refused fun s => ?_
      cases members.drop i with
      | nil =>
        rw [nextText, mem_word]
        exact fun h => notBrace (List.cons.inj h).1
      | cons m rest =>
        rw [nextText, cons_mem_word_mul]
        exact fun h => notComma h.1

theorem first_steps (between : Between members 0 .objectKeyOrEnd g) : Steps members b (membersText members) (g.structural b) := by
  have guided := between.guided
  have exhausted := exhausted_iff guided between.opened
  rw [List.drop_zero] at exhausted
  unfold structural
  rw [between.expect]
  dsimp only
  split
  · rename_i brace
    subst brace
    refine close_steps guided between.opened between.idle (Nat.zero_le _) (fun none s => ?_) fun some s => ?_
    · rw [List.drop_zero] at none
      rw [none, membersText, mem_word]
      simp
    · rw [List.drop_zero] at some
      obtain ⟨⟨key, t⟩, rest, rfl⟩ := List.exists_cons_of_ne_nil some
      rw [membersText, cons_mem_word_mul]
      exact fun h => absurd h.1 (by decide)
  · rename_i notBrace
    split
    · rename_i quote
      subst quote
      split
      · rename_i all
        rw [exhausted.mp all]
        exact steps_refused fun t => by simp +decide [membersText, mem_word]
      · rename_i more
        obtain ⟨⟨key, t⟩, rest, here⟩ := List.exists_cons_of_ne_nil fun none => more (exhausted.mpr none)
        refine start_key_steps guided (by simp [between.expect]) between.opened (by rw [List.drop_zero]; exact here) fun s => ?_
        rw [here, membersText, cons_mem_word_mul, word_nil, one_mul]
        simp
    · rename_i notQuote
      refine steps_refused fun s => ?_
      cases members with
      | nil =>
        rw [membersText, mem_word]
        exact fun h => notBrace (List.cons.inj h).1
      | cons m rest =>
        rw [membersText, cons_mem_word_mul]
        exact fun h => notQuote h.1

theorem key_steps (between : Between members i .objectKey g) (here : members.drop i = (key, t) :: rest) :
    Steps members b (membersText ((key, t) :: rest)) (g.structural b) := by
  have guided := between.guided
  have more : g.schemaKeysExhausted = false := by
    rw [Bool.eq_false_iff, ne_eq, exhausted_iff guided between.opened, here]
    exact List.cons_ne_nil _ _
  unfold structural
  rw [between.expect]
  dsimp only
  rw [more]
  split
  · rename_i quote
    subst quote
    refine start_key_steps guided (by simp [between.expect]) between.opened here fun s => ?_
    rw [membersText, cons_mem_word_mul, word_nil, one_mul]
    simp
  · rename_i notQuote
    refine steps_refused fun s => ?_
    rw [membersText, cons_mem_word_mul]
    exact fun h => notQuote h.1

theorem cons_mem_keyRest_cons {c : UInt8} {s : Bytes} : b :: s ∈ keyRest (c :: key) * m ↔
    (b = c ∧ Unescaped c) ∧ s ∈ keyRest key * m := by
  rw [keyRest, mul_assoc, cons_mem_symbols_mul]

/-- A byte of the key the schema asks for. -/
theorem inKey_steps {left : Bytes} (guided : Guided members i g) (goesOn : g.expect ≠ .finish) (string : g.scalar = .string) (reading : g.readingKey = true)
    (opened : g.stack = [.object]) (here : members.drop i = (key, t) :: rest) (read : key = g.curKey ++ left) :
    Steps members b (keyRest left * (word [colon] * (typed t * nextText rest))) (g.feedString b) := by
  obtain ⟨asked, type, _, _⟩ := guided.member_at here
  have root := atRoot_of_opened guided opened
  have schemaKey : (g.readingKey && g.atRoot) = true := by rw [reading, root, Bool.and_self]
  unfold feedString
  simp only [schemaKey, if_true, asked]
  split
  · rename_i quoted
    subst quoted
    unfold closeString
    have root' : ({ g with scalar := .none } : JsonGrammar).atRoot = true := root
    dsimp only
    rw [if_pos reading, if_pos root', asked, type]
    cases left with
    | nil =>
      have same : g.curKey.length = key.length := by rw [read, List.append_nil]
      rw [if_neg (not_not.mpr same)]
      refine steps_taken (.colon ⟨⟨guided.schema, guided.compact, guided.keys, guided.types, guided.index⟩, rfl, rfl, opened,
        rfl⟩ here rfl) fun s => ?_
      rw [keyRest, cons_mem_word_mul, word_nil, one_mul]
      simp
    | cons c left =>
      have short : g.curKey.length ≠ key.length := by
        rw [read, List.length_append, List.length_cons]
        omega
      rw [if_pos short]
      refine steps_refused fun s => ?_
      rw [cons_mem_keyRest_cons]
      rintro ⟨⟨rfl, plain⟩, _⟩
      exact plain.2.1 rfl
  · rename_i notQuote
    split
    · rename_i escape
      refine steps_refused fun s => ?_
      cases left with
      | nil =>
        rw [keyRest, cons_mem_word_mul]
        exact fun h => notQuote h.1
      | cons c left =>
        rw [cons_mem_keyRest_cons]
        rintro ⟨⟨rfl, plain⟩, _⟩
        exact plain.2.2 escape
    · rename_i notEscape
      split
      · rename_i control
        refine steps_refused fun s => ?_
        cases left with
        | nil =>
          rw [keyRest, cons_mem_word_mul]
          exact fun h => notQuote h.1
        | cons c left =>
          rw [cons_mem_keyRest_cons]
          rintro ⟨⟨rfl, plain⟩, _⟩
          exact absurd plain.1 (UInt8.not_le.mpr control)
      · rename_i printable
        have wanted : key[g.curKey.length]? = left.head? := by
          rw [read, List.getElem?_append_right (Nat.le_refl _), Nat.sub_self, List.head?_eq_getElem?]
        rw [wanted]
        cases left with
        | nil =>
          refine steps_refused fun s => ?_
          rw [keyRest, cons_mem_word_mul]
          exact fun h => notQuote h.1
        | cons c left =>
          rw [List.head?_cons]
          split
          · rename_i same
            obtain rfl : c = b := Option.some.inj same
            refine steps_taken (.inKey ⟨guided.schema, guided.compact, guided.keys, guided.types, guided.index⟩
              goesOn string reading opened here (show key = g.curKey ++ [c] ++ left by
                rw [read, List.append_assoc, List.singleton_append])) fun s => ?_
            rw [cons_mem_keyRest_cons]
            exact ⟨fun h => h.2, fun h => ⟨⟨rfl, UInt8.not_lt.mp printable, notQuote, notEscape⟩, h⟩⟩
          · rename_i other
            refine steps_refused fun s => ?_
            rw [cons_mem_keyRest_cons]
            rintro ⟨⟨rfl, _⟩, _⟩
            exact other rfl

theorem colon_steps {m : Bytes × ValueType} (between : Between members i .objectColon g) (here : members.drop i = m :: rest)
    (pending : g.pendingType = m.2) : Steps members b (word [colon] * (typed m.2 * nextText rest)) (g.structural b) := by
  have guided := between.guided
  unfold structural
  rw [between.expect]
  dsimp only
  split
  · rename_i colon
    subst colon
    refine steps_taken (.value ⟨⟨guided.schema, guided.compact, guided.keys, guided.types, guided.index⟩, rfl, between.idle,
      between.opened, between.key⟩ here pending) fun s => ?_
    rw [cons_mem_word_mul, word_nil, one_mul]
    simp
  · rename_i other
    refine steps_refused fun s => ?_
    rw [cons_mem_word_mul]
    exact fun h => other h.1

/-! ### Numbers -/

theorem numberContinue_integral {num : Num} (only : g.numIntOnly = true) (integral : Integral g.num)
    (next : g.numberContinue b = some num) : Integral num := by
  unfold numberContinue at next
  rcases integral with h | h | h
  · simp only [h] at next
    split at next
    · exact .inr (.inl (Option.some.inj next).symm)
    · split at next
      · exact .inr (.inr (Option.some.inj next).symm)
      · cases next
  · simp [h, only] at next
  · simp only [h, only, if_true] at next
    split at next
    · exact .inr (.inr (Option.some.inj next).symm)
    · cases next

/-- A byte extends the number, or the number has ended before it. -/
theorem cons_mem_numRest_mul {s : Bytes} (integral : g.numIntOnly = true → Integral g.num) :
    b :: s ∈ numRest g.numIntOnly g.num * m ↔
      (∃ num, g.numberContinue b = some num ∧ s ∈ numRest g.numIntOnly num * m) ∨ (g.num.terminable = true ∧ b :: s ∈ m) := by
  cases only : g.numIntOnly with
  | false =>
    have any : ∀ num, numRest false num = numberRest num := fun num => rfl
    simp only [any]
    exact cons_mem_numberRest_mul g only
  | true =>
    unfold numberContinue
    rcases integral only with h | h | h
    · rw [h, numRest, cons_mem_int_mul]
      by_cases hz : b = zero
      · subst hz
        have leading : ¬(0x31 ≤ zero ∧ zero ≤ 0x39) := by decide
        simp [leading, numRest, Num.terminable]
      · by_cases hd : 0x31 ≤ b ∧ b ≤ 0x39
        · simp [hz, hd, numRest, Num.terminable]
        · simp [hz, hd, Num.terminable]
    · simp [h, only, numRest, Num.terminable]
    · rw [h, numRest, cons_mem_kstar_symbols_mul]
      by_cases hd : isDigit b = true
      · simp [hd, numRest, Num.terminable]
      · simp [hd, only, Num.terminable]

theorem nil_mem_numRest_mul {intOnly : Bool} {num : Num} (none : [] ∉ m) : [] ∉ numRest intOnly num * m := by
  rw [nil_mem_mul]
  exact fun h => none h.2

theorem nil_mem_nextText : [] ∉ nextText rest := by
  cases rest with
  | nil => exact fun h => List.cons_ne_nil _ _ h.symm
  | cons m rest => simp [nextText]

/-- What follows a value is no part of a number. -/
theorem delimits_of_nextText {s : Bytes} (h : b :: s ∈ nextText rest) : Delimits b := by
  cases rest with
  | nil => exact .inr (.inr (.inl (List.cons.inj h).1))
  | cons m rest =>
    rw [nextText, cons_mem_word_mul] at h
    exact .inr (.inl h.1)

theorem steps_congr {k : Language UInt8} {r : Bool × JsonGrammar} (h : ∀ t, b :: t ∈ l ↔ b :: t ∈ k)
    (steps : Steps members b k r) : Steps members b l r := by
  unfold Steps at steps ⊢
  split
  · rename_i taken
    rw [if_pos taken] at steps
    obtain ⟨after, at_, next⟩ := steps
    exact ⟨after, at_, fun t => (h t).trans (next t)⟩
  · rename_i refused
    rw [if_neg refused] at steps
    exact fun t => (h t).not.mpr (steps t)

/-- A number that is itself the member's value. -/
theorem number_steps {m : Bytes × ValueType} (guided : Guided members i g) (goesOn : g.expect ≠ .finish) (number : g.scalar = .number)
    (opened : g.stack = [.object]) (key : g.readingKey = false) (integral : g.numIntOnly = true → Integral g.num)
    (here : members.drop i = m :: rest) :
    Steps members b (numRest g.numIntOnly g.num * nextText rest) (g.feedNumber b) := by
  have reads := fun s => cons_mem_numRest_mul (b := b) (m := nextText rest) (s := s) integral
  obtain ⟨_, _, inside, behind⟩ := guided.member_at here
  unfold feedNumber
  split
  · rename_i num next
    refine steps_taken (.number (g := { g with num }) ⟨guided.schema, guided.compact, guided.keys, guided.types, guided.index⟩
      goesOn number opened key (fun only => numberContinue_integral (g := g) only (integral only) next) here) fun s => ?_
    rw [reads]
    constructor
    · rintro (⟨num', next', h⟩ | ⟨_, h⟩)
      · obtain rfl := Option.some.inj (next.symm.trans next')
        exact h
      · rw [numberContinue_delimiter (delimits_of_nextText h)] at next
        cases next
    · exact fun h => .inl ⟨num, next, h⟩
  · rename_i stop
    have ends : ∀ s, b :: s ∈ numRest g.numIntOnly g.num * nextText rest ↔
        g.num.terminable = true ∧ b :: s ∈ nextText rest := by
      intro s
      rw [reads, stop]
      simp
    unfold finishScalarThen
    split
    · rename_i unfinished
      refine steps_refused fun s => ?_
      rw [ends]
      simp_all
    · rename_i finished
      obtain ⟨guided', place⟩ := push_root (g := { g with scalar := .none })
        ⟨guided.schema, guided.compact, guided.keys, guided.types, guided.index⟩ ⟨opened, nofun, nofun⟩
        ⟨rfl, rfl, rfl, key, rfl⟩
      have after := next_steps (b := b) ⟨guided', place.expect, place.idle, place.opened, place.key⟩ inside
      rw [behind] at after
      refine steps_congr (fun s => ?_) (steps_between guided'.compact after)
      rw [ends]
      simp_all

/-! ### Values -/

/-- A byte that the grammar of any value takes in the same way. -/
theorem steps_follows {m : Bytes × ValueType} {demand : Language UInt8} {r q : Bool × JsonGrammar} (guided : Guided members i g)
    (here : members.drop i = m :: rest) (follows : Follows members i r q) (meets : Meets b demand q) (some : [] ∉ demand) :
    Steps members b (demand * nextText rest) r := by
  obtain ⟨_, _, inside, behind⟩ := guided.member_at here
  unfold Steps
  split
  · rename_i taken
    have taken' : q.1 = true := follows.same ▸ taken
    have reads : ∀ s, b :: s ∈ demand * nextText rest ↔ s ∈ q.2.owed * nextText rest := fun s =>
      cons_mem_mul_of some fun u => by rw [meets.1, taken', eq_self_iff_true, true_and]
    rcases follows.goes taken' with ⟨stack, guided', member, same, busy⟩ | ⟨guided', place, ended⟩
    · by_cases root : r.2.scalar = .number ∧ stack = []
      · obtain ⟨number, rfl⟩ := root
        have plain := meets.2 taken'
        rw [← same] at plain reads
        have float := member.float number
        refine ⟨_, .number guided' (plain.not_finish (by simp [within, number])) number member.opened (plain.notKey (.inr number)) (by simp [float]) here, fun s => ?_⟩
        have owed : (r.2.within []).owed = numRest r.2.numIntOnly r.2.num := by
          have scalar : (r.2.within []).scalar = .number := number
          have compact : (r.2.within []).allowWs = false := guided'.compact
          simp only [JsonGrammar.owed, scalar, compact, float]
          exact mul_one _
        rw [reads, owed]
      · rw [← same] at reads
        refine ⟨_, .within guided' member (same ▸ meets.2 taken') busy (fun number empty => root ⟨number, empty⟩) here, reads⟩
    · refine ⟨_, .next ⟨guided', place.expect, place.idle, place.opened, place.key⟩ inside, fun s => ?_⟩
      rw [reads, ended, one_mul, behind]
  · rename_i refused
    intro s member
    obtain ⟨u, hu, _⟩ := (cons_mem_mul_iff some).mp member
    rw [meets.1, ← follows.same] at hu
    exact refused hu.1

/-- A member's value is not complete before it ends. -/
theorem within_incomplete (plain : (g.within stack).Plain) (busy : g.scalar ≠ .none ∨ stack ≠ [])
    (inner : g.scalar = .number → stack ≠ []) : ¬(g.within stack).complete = true := by
  intro ended
  unfold complete at ended
  have fits := plain.fits
  split at ended
  · rename_i finish
    simp only [Fits, finish] at fits
    obtain ⟨_, empty, idle⟩ := fits
    exact busy.elim (fun other => other idle) fun nested => nested empty
  · simp only [within, Bool.and_eq_true, List.isEmpty_iff, beq_iff_eq] at ended
    exact inner ended.1.2 ended.1.1

theorem within_steps {m : Bytes × ValueType} (guided : Guided members i g) (member : Member stack g)
    (plain : (g.within stack).Plain) (busy : g.scalar ≠ .none ∨ stack ≠ []) (inner : g.scalar = .number → stack ≠ [])
    (here : members.drop i = m :: rest) : Steps members b ((g.within stack).owed * nextText rest) (g.feed b) := by
  refine steps_follows guided here (feed_follows guided member plain busy inner b) (feed_meets plain) ?_
  rw [nil_mem_owed plain]
  exact within_incomplete plain busy inner

/-- The types other than that of the integers only choose among the values of any type. -/
theorem beginValue_typed (allowed : typeAllows b t = true) (float : t ≠ .integer) : g.beginValue b t = g.beginValue b .free := by
  have loose : (t == ValueType.integer) = false := by simpa using float
  have free : typeAllows b .free = true := rfl
  unfold beginValue startNumber
  rw [allowed, free, loose]
  rfl

theorem cons_mem_typed_mul {s : Bytes} (float : t ≠ .integer) :
    b :: s ∈ typed t * m ↔ typeAllows b t = true ∧ b :: s ∈ value false * m := by
  cases t with
  | free => simp [typed, typeAllows]
  | integer => exact absurd rfl float
  | string =>
    rw [typed, cons_mem_string_mul, cons_mem_value_mul]
    constructor
    · rintro ⟨rfl, h⟩
      exact ⟨rfl, .inl ⟨rfl, h⟩⟩
    · rintro ⟨allowed, h⟩
      obtain rfl : b = quote := by simpa [typeAllows] using allowed
      simpa +decide [cons_mem_number_mul, cons_mem_literal_mul] using h
  | number =>
    rw [typed, cons_mem_value_mul]
    constructor
    · intro h
      refine ⟨?_, .inr (.inl h)⟩
      rcases cons_mem_number_mul.mp h with ⟨rfl, _⟩ | ⟨rfl, _⟩ | ⟨⟨low, high⟩, _⟩
      · rfl
      · rfl
      · have low' : (0x30 : UInt8) ≤ b := UInt8.le_trans (by decide) low
        simp [typeAllows, isDigit, low', high]
    · rintro ⟨allowed, ⟨rfl, _⟩ | h | h | ⟨rfl, _⟩ | ⟨rfl, _⟩⟩
      · exact absurd allowed (by decide)
      · exact h
      · rcases cons_mem_literal_mul.mp h with ⟨rfl, _⟩ | ⟨rfl, _⟩ | ⟨rfl, _⟩ <;> exact absurd allowed (by decide)
      · exact absurd allowed (by decide)
      · exact absurd allowed (by decide)
  | boolean =>
    have reads : b :: s ∈ boolean * m ↔
        (b = 0x74 ∧ s ∈ word (Bytes.ofAscii "rue") * m) ∨ (b = 0x66 ∧ s ∈ word (Bytes.ofAscii "alse") * m) := by
      have hTrue : Bytes.ofAscii "true" = 0x74 :: Bytes.ofAscii "rue" := by decide
      have hFalse : Bytes.ofAscii "false" = 0x66 :: Bytes.ofAscii "alse" := by decide
      rw [boolean, hTrue, hFalse, cons_mem_add_mul, cons_mem_word_mul, cons_mem_word_mul]
    rw [typed, reads, cons_mem_value_mul, cons_mem_literal_mul]
    constructor
    · rintro (⟨rfl, h⟩ | ⟨rfl, h⟩)
      · exact ⟨rfl, .inr (.inr (.inl (.inl ⟨rfl, h⟩)))⟩
      · exact ⟨rfl, .inr (.inr (.inl (.inr (.inl ⟨rfl, h⟩))))⟩
    · rintro ⟨allowed, h⟩
      obtain rfl | rfl : b = 0x74 ∨ b = 0x66 := by simpa [typeAllows] using allowed
      · simpa +decide [cons_mem_number_mul] using h
      · simpa +decide [cons_mem_number_mul] using h

theorem cons_mem_integer_mul {s : Bytes} : b :: s ∈ integer * m ↔ (b = minus ∧ s ∈ numRest true .sign * m) ∨
    (b = zero ∧ s ∈ numRest true .intZero * m) ∨ ((0x31 ≤ b ∧ b ≤ 0x39) ∧ s ∈ numRest true .intDigits * m) := by
  simp only [integer, numRest, mul_assoc, cons_mem_add_mul, one_mul, cons_mem_word_mul, word_nil, cons_mem_int_mul]
  tauto

/-- The first byte of an integer. -/
theorem integer_steps {m : Bytes × ValueType} (between : Between members i .value g) (here : members.drop i = m :: rest) :
    Steps members b (integer * nextText rest) (g.beginValue b .integer) := by
  have guided := between.guided
  have begins : ∀ num, Integral num → At members (g.startNumber num .integer) (numRest true num * nextText rest) :=
    fun num integral => .number (g := g.startNumber num .integer) ⟨guided.schema, guided.compact, guided.keys, guided.types,
      guided.index⟩ (by simp [startNumber, between.expect]) rfl between.opened between.key (fun _ => integral) here
  have other : ∀ {c : UInt8}, typeAllows c .integer = false → (!typeAllows b .integer) ≠ true → b ≠ c := by
    rintro c refused allowed rfl
    rw [refused] at allowed
    exact allowed rfl
  unfold beginValue
  split
  · rename_i refused
    refine steps_refused fun s h => ?_
    rcases cons_mem_integer_mul.mp h with ⟨rfl, _⟩ | ⟨rfl, _⟩ | ⟨⟨low, high⟩, _⟩
    · exact absurd refused (by decide)
    · exact absurd refused (by decide)
    · have low' : (0x30 : UInt8) ≤ b := UInt8.le_trans (by decide) low
      simp [typeAllows, isDigit, low', high] at refused
  · rename_i allowed
    rw [if_neg (other (by decide) allowed), if_neg (other (by decide) allowed), if_neg (other (by decide) allowed),
      if_neg (other (by decide) allowed), if_neg (other (by decide) allowed), if_neg (other (by decide) allowed)]
    split
    · rename_i sign
      subst sign
      refine steps_taken (begins .sign (.inl rfl)) fun s => ?_
      rw [cons_mem_integer_mul]
      simp +decide
    · rename_i notSign
      split
      · rename_i leading
        subst leading
        refine steps_taken (begins .intZero (.inr (.inl rfl))) fun s => ?_
        rw [cons_mem_integer_mul]
        simp +decide
      · rename_i notZero
        split
        · rename_i digit
          refine steps_taken (begins .intDigits (.inr (.inr rfl))) fun s => ?_
          rw [cons_mem_integer_mul]
          simp [notSign, notZero, digit]
        · rename_i notDigit
          refine steps_refused fun s => ?_
          rw [cons_mem_integer_mul]
          simp [notSign, notZero, notDigit]

theorem value_steps {m : Bytes × ValueType} (between : Between members i .value g) (here : members.drop i = m :: rest)
    (pending : g.pendingType = m.2) : Steps members b (typed m.2 * nextText rest) (g.structural b) := by
  have guided := between.guided
  have inside : (g.schema && g.stack.isEmpty && b != openBrace) = false := by
    rw [between.opened]
    simp
  have begins : g.structural b = g.beginValue b m.2 := by
    unfold structural
    rw [between.expect]
    dsimp only
    rw [inside, pending]
    rfl
  rw [begins]
  by_cases only : m.2 = .integer
  · rw [only]
    exact integer_steps between here
  · cases allowed : typeAllows b m.2 with
    | false =>
      have refused : g.beginValue b m.2 = (false, g) := by
        rw [beginValue, allowed]
        rfl
      rw [refused]
      refine steps_refused fun s => ?_
      rw [cons_mem_typed_mul only, allowed]
      exact fun h => absurd h.1 Bool.false_ne_true
    | true =>
      have member : Member [] g := by
        refine ⟨between.opened, fun other => absurd rfl other, fun number => ?_⟩
        rw [between.idle] at number
        cases number
      have meets := beginValue_meets (b := b) (g := g.within []) ⟨rfl, rfl, rfl, between.key, between.idle⟩ (.inl between.expect)
      have compact : (g.within []).allowWs = false := guided.compact
      have whole : value (g.within []).allowWs * after (g.within []).allowWs (g.within []).stack = value false := by
        rw [compact]
        exact mul_one _
      rw [whole] at meets
      rw [beginValue_typed allowed only]
      refine steps_congr (k := value false * nextText rest) (fun s => ?_)
        (steps_follows guided here (begin_follows guided member b fun container => ?_) meets nil_not_mem_value)
      · rw [cons_mem_typed_mul only, allowed, eq_self_iff_true, true_and]
      · rw [pending]
        rcases container with rfl | rfl
        · revert allowed
          cases m.2 <;> simp +decide
        · revert allowed
          cases m.2 <;> simp +decide

theorem start_steps (guided : Guided members 0 g) (expect : g.expect = .value) (idle : g.scalar = .none)
    (opened : g.stack = []) (key : g.readingKey = false) (free : g.pendingType = .free) :
    Steps members b (schemaText members) (g.structural b) := by
  unfold structural
  rw [expect]
  dsimp only
  rw [guided.schema, opened, free]
  split
  · rename_i other
    have other : b ≠ openBrace := by simpa using other
    refine steps_refused fun s => ?_
    rw [schemaText, cons_mem_word_mul]
    exact fun h => other h.1
  · rename_i brace
    obtain rfl : b = openBrace := by simpa using brace
    have opens : g.beginValue openBrace .free = (true, { g with stack := [.object], expect := .objectKeyOrEnd }) := by
      simp +decide [beginValue, opened]
    rw [opens]
    refine steps_taken (.first ⟨⟨guided.schema, guided.compact, guided.keys, guided.types, guided.index⟩, rfl, idle, rfl,
      key⟩) fun s => ?_
    rw [schemaText, cons_mem_word_mul, word_nil, one_mul]
    simp

/-! ### The whole text -/

theorem feed_between (idle : g.scalar = .none) (b : UInt8) : g.feed b = g.between b := by
  rw [feed, idle]

theorem feed_steps (at_ : At members g l) (b : UInt8) : Steps members b l (g.feed b) := by
  cases at_ with
  | start guided expect idle opened key free =>
    rw [feed_between idle]
    exact steps_between guided.compact (start_steps guided expect idle opened key free)
  | first between =>
    rw [feed_between between.idle]
    exact steps_between between.guided.compact (first_steps between)
  | key between here =>
    rw [feed_between between.idle]
    exact steps_between between.guided.compact (key_steps between here)
  | inKey guided goesOn string reading opened here read =>
    rw [feed, string]
    exact inKey_steps guided goesOn string reading opened here read
  | colon between here pending =>
    rw [feed_between between.idle]
    exact steps_between between.guided.compact (colon_steps between here pending)
  | value between here pending =>
    rw [feed_between between.idle]
    exact steps_between between.guided.compact (value_steps between here pending)
  | within guided member plain busy inner here => exact within_steps guided member plain busy inner here
  | number guided goesOn number opened key integral here =>
    rw [feed, number]
    exact number_steps guided goesOn number opened key integral here
  | next between inside =>
    rw [feed_between between.idle]
    exact steps_between between.guided.compact (next_steps between inside)
  | finish expect idle compact =>
    rw [feed_between idle]
    refine steps_between compact ?_
    unfold structural
    rw [expect]
    exact steps_refused fun t => List.cons_ne_nil b t

/-- The output may stop where nothing is owed any more. -/
theorem nil_mem_at (at_ : At members g l) : [] ∈ l ↔ g.complete = true := by
  have goesOn : g.expect ≠ .finish → g.scalar ≠ .number ∨ g.stack ≠ [] → ¬g.complete = true := by
    intro other number
    simp only [complete, other, if_false, Bool.and_eq_true, List.isEmpty_iff, beq_iff_eq]
    exact fun ⟨⟨empty, here⟩, _⟩ => number.elim (· here) (· empty)
  have opened : ∀ {stack : List Container}, g.stack = stack ++ [.object] → g.stack ≠ [] := by
    intro stack eq
    rw [eq]
    simp
  cases at_ with
  | start _ expect idle _ _ _ => exact iff_of_false (by simp [schemaText]) (goesOn (by simp [expect]) (.inl (by simp [idle])))
  | first between =>
    refine iff_of_false ?_ (goesOn (by simp [between.expect]) (.inl (by simp [between.idle])))
    cases members with
    | nil => exact fun h => List.cons_ne_nil _ _ h.symm
    | cons m rest => simp [membersText]
  | key between here =>
    exact iff_of_false (by simp [membersText]) (goesOn (by simp [between.expect]) (.inl (by simp [between.idle])))
  | inKey guided open_ string reading opened here read =>
    exact iff_of_false (by simp) (goesOn open_ (.inl (by simp [string])))
  | colon between here pending => exact iff_of_false (by simp) (goesOn (by simp [between.expect]) (.inl (by simp [between.idle])))
  | value between here pending =>
    exact iff_of_false (fun h => nil_mem_nextText (nil_mem_mul.mp h).2)
      (goesOn (by simp [between.expect]) (.inl (by simp [between.idle])))
  | within guided member plain busy inner here =>
    refine iff_of_false (fun h => nil_mem_nextText (nil_mem_mul.mp h).2) (goesOn ?_ (.inr (opened member.opened)))
    intro finish
    have fits := plain.fits
    simp only [Fits, JsonGrammar.within, finish] at fits
    exact busy.elim (fun other => other fits.2.2) fun nested => nested fits.2.1
  | number guided open_ number here _ _ _ =>
    exact iff_of_false (fun h => nil_mem_nextText (nil_mem_mul.mp h).2) (goesOn open_ (.inr (by simp [here])))
  | next between inside =>
    exact iff_of_false nil_mem_nextText (goesOn (by simp [between.expect]) (.inl (by simp [between.idle])))
  | finish expect idle compact => simp [complete, expect]

/-- The texts of a place are those that are accepted and end a document. -/
theorem recognized (at_ : At members g l) (s : Bytes) : s ∈ l ↔ g.accepts s = true ∧ (g.advance s).complete = true := by
  induction s generalizing g l with
  | nil => simp [nil_mem_at at_, accepts, advance]
  | cons b s ih =>
    have steps := feed_steps at_ b
    unfold Steps at steps
    split at steps
    · rename_i taken
      obtain ⟨l', at', next⟩ := steps
      rw [next, ih at', accepts, taken, Bool.true_and]
      rfl
    · rename_i refused
      refine iff_of_false (steps s) ?_
      rw [accepts, Bool.eq_false_iff.mpr refused, Bool.false_and]
      exact fun h => Bool.false_ne_true h.1

theorem accepts_at (at_ : At members g l) {s : Bytes} (accepted : g.accepts s = true) : ∃ l', At members (g.advance s) l' := by
  induction s generalizing g l with
  | nil => exact ⟨l, at_⟩
  | cons b s ih =>
    rw [accepts, Bool.and_eq_true] at accepted
    have steps := feed_steps at_ b
    unfold Steps at steps
    rw [if_pos accepted.1] at steps
    obtain ⟨l', at', _⟩ := steps
    exact ih at' accepted.2

/-- With keys that can be written every place has a way on. -/
theorem at_nonempty (at_ : At members g l) (plain : ∀ m ∈ members, ∀ b ∈ m.1, Unescaped b) : ∃ s, s ∈ l := by
  have dropped : ∀ {i rest}, members.drop i = rest → ∀ m ∈ rest, ∀ b ∈ m.1, Unescaped b := by
    rintro i _ rfl m member
    exact plain m (List.mem_of_mem_drop member)
  have tail : ∀ {i m rest}, members.drop i = m :: rest → ∃ s, s ∈ nextText rest := fun here =>
    nonempty_nextText fun m member => dropped here m (List.mem_cons_of_mem _ member)
  cases at_ with
  | start => exact nonempty_mul nonempty_word (nonempty_membersText plain)
  | first => exact nonempty_membersText plain
  | key _ here => exact nonempty_membersText (dropped here)
  | inKey _ _ _ _ _ here read =>
    refine nonempty_mul (nonempty_keyRest fun b member => ?_)
      (nonempty_mul nonempty_word (nonempty_mul (nonempty_typed _) (tail here)))
    exact dropped here _ List.mem_cons_self b (by rw [read]; exact List.mem_append_right _ member)
  | colon _ here => exact nonempty_mul nonempty_word (nonempty_mul (nonempty_typed _) (tail here))
  | value _ here => exact nonempty_mul (nonempty_typed _) (tail here)
  | within _ _ _ _ _ here => exact nonempty_mul owed_nonempty (tail here)
  | number _ _ _ _ _ _ here =>
    refine nonempty_mul ?_ (tail here)
    unfold numRest
    split
    · exact nonempty_int
    · exact nonempty_one
    · exact nonempty_kstar
    · exact nonempty_numberRest _
  | next => exact nonempty_nextText (dropped rfl)
  | finish => exact nonempty_one

/-! ### Grammars of a schema string -/

variable {parse : Bytes → Option Json} {schemaJson : Bytes}

/-- The properties that the schema string's grammar is made of. -/
def propertiesOf (parse : Bytes → Option Json) (schemaJson : Bytes) : Option (List (Bytes × ValueType)) :=
  if schemaJson = [] ∨ schemaJson = .ofAscii "json" then none else (parse schemaJson).bind extractProperties

theorem fromSchemaString_none (none : propertiesOf parse schemaJson = .none) : fromSchemaString parse schemaJson = anyValue := by
  unfold propertiesOf at none
  unfold fromSchemaString
  split
  · rfl
  · rename_i given
    rw [if_neg given] at none
    split
    · rfl
    · rename_i schema parsed
      rw [parsed, Option.bind_some] at none
      rw [fromSchema, none]

theorem fromSchemaString_some (some : propertiesOf parse schemaJson = .some members) :
    fromSchemaString parse schemaJson =
      { anyValue with schema := true, keys := members.map Prod.fst, types := members.map Prod.snd } := by
  unfold propertiesOf at some
  split at some
  · cases some
  · rename_i given
    obtain ⟨schema, parsed, properties⟩ := Option.bind_eq_some_iff.mp some
    rw [fromSchemaString, if_neg given, parsed]
    dsimp only
    rw [fromSchema, properties]

theorem schema_at (some : propertiesOf parse schemaJson = .some members) :
    At members ((fromSchemaString parse schemaJson).setCompact true) (schemaText members) := by
  rw [fromSchemaString_some some]
  exact .start ⟨rfl, rfl, rfl, rfl, rfl⟩ rfl rfl rfl rfl rfl

/-- A text that the compact grammar of a schema accepts and is complete after is one JSON object: the schema's keys,
written as they are, each once and in order, and each with a value of its type. -/
theorem schema_sound (properties : propertiesOf parse schemaJson = some members) {s : Bytes}
    (accepted : ((fromSchemaString parse schemaJson).setCompact true).accepts s = true)
    (complete : (((fromSchemaString parse schemaJson).setCompact true).advance s).complete = true) :
    s ∈ document false ∧ (∀ m ∈ members, ∀ b ∈ m.1, Unescaped b) ∧
      ∃ values, List.Forall₂ (fun m v => v ∈ typed m.2) members values ∧
        s = objectText (List.zipWith memberText members values) := by
  have text := (recognized (schema_at properties) s).mpr ⟨accepted, complete⟩
  exact ⟨schemaText_document text, mem_schemaText.mp text⟩

theorem accepts_append (g : JsonGrammar) (s t : Bytes) : g.accepts (s ++ t) = (g.accepts s && (g.advance s).accepts t) := by
  induction s generalizing g with
  | nil => simp [accepts, advance]
  | cons b s ih =>
    rw [List.cons_append, accepts, accepts, ih, Bool.and_assoc]
    rfl

theorem advance_append (g : JsonGrammar) (s t : Bytes) : g.advance (s ++ t) = (g.advance s).advance t := by
  rw [advance, List.foldl_append]
  rfl

/-- Every accepted text can be gone on with to a complete one. -/
def NoDeadEnd (g : JsonGrammar) : Prop :=
  ∀ s, g.accepts s = true → ∃ t, g.accepts (s ++ t) = true ∧ (g.advance (s ++ t)).complete = true

theorem anyValue_noDeadEnd : NoDeadEnd (anyValue.setCompact true) := by
  intro s accepted
  have plain := anyValue_plain true
  obtain ⟨t, text⟩ := (accepts_iff plain s).mp accepted
  have whole : (anyValue.setCompact true).accepts (s ++ t) = true :=
    (accepts_iff plain (s ++ t)).mpr ⟨[], by rwa [List.append_nil]⟩
  exact ⟨t, whole, (complete_advance plain whole).mpr text⟩

/-- The compact grammar of a schema string has no dead end if and only if no property name of the schema contains a
quote, a backslash or a control character. -/
theorem no_dead_end_iff (parse : Bytes → Option Json) (schemaJson : Bytes) :
    NoDeadEnd ((fromSchemaString parse schemaJson).setCompact true) ↔
      ∀ members, propertiesOf parse schemaJson = some members → ∀ m ∈ members, ∀ b ∈ m.1, Unescaped b := by
  constructor
  · intro alive members properties
    obtain ⟨t, accepted, complete⟩ := alive [] rfl
    exact (mem_schemaText.mp ((recognized (schema_at properties) t).mpr ⟨accepted, complete⟩)).1
  · intro plain
    cases properties : propertiesOf parse schemaJson with
    | none =>
      rw [fromSchemaString_none properties]
      exact anyValue_noDeadEnd
    | some members =>
      intro s accepted
      obtain ⟨l, here⟩ := accepts_at (schema_at properties) accepted
      obtain ⟨t, text⟩ := at_nonempty here (plain members properties)
      obtain ⟨goesOn, complete⟩ := (recognized here t).mp text
      refine ⟨t, ?_, ?_⟩
      · rw [accepts_append, accepted, goesOn]
        rfl
      · rw [advance_append]
        exact complete

def twoSchema : Bytes :=
  .ofAscii "\x7b\"properties\":\x7b\"a\":\x7b\"type\":\"integer\"\x7d,\"b\":\x7b\x7d\x7d\x7d"

def twoProperties : Json :=
  .obj [(.ofAscii "properties", .obj [(.ofAscii "a", .obj [(.ofAscii "type", .str (.ofAscii "integer"))]), (.ofAscii "b", .obj [])])]

theorem schema_sound_two : Bytes.ofAscii "\x7b\"a\":-7,\"b\":[null]\x7d" ∈ document false ∧
    (∀ m ∈ [(Bytes.ofAscii "a", ValueType.integer), (Bytes.ofAscii "b", ValueType.free)], ∀ b ∈ m.1, Unescaped b) ∧
    ∃ values, List.Forall₂ (fun m v => v ∈ typed m.2) [(Bytes.ofAscii "a", .integer), (Bytes.ofAscii "b", .free)] values ∧
      Bytes.ofAscii "\x7b\"a\":-7,\"b\":[null]\x7d" =
        objectText (List.zipWith memberText [(Bytes.ofAscii "a", .integer), (Bytes.ofAscii "b", .free)] values) :=
  schema_sound (show propertiesOf (fun s => if s = twoSchema then some twoProperties else none) twoSchema = some _ from rfl)
    (by decide) (by decide)

/-- A schema with one property, named by a quote. -/
def quotedSchema : Bytes := .ofAscii "\x7b\"properties\":\x7b\"\\\"\":\x7b\x7d\x7d\x7d"

def quotedProperty : Json := .obj [(.ofAscii "properties", .obj [([quote], .obj [])])]

theorem quoted_dead_end :
    ¬NoDeadEnd ((fromSchemaString (fun s => if s = quotedSchema then some quotedProperty else none) quotedSchema).setCompact
      true) := by
  intro alive
  obtain ⟨t, accepted, complete⟩ := alive [] rfl
  have properties : propertiesOf (fun s => if s = quotedSchema then some quotedProperty else none) quotedSchema =
      some [([quote], .free)] := by rfl
  have plain := (mem_schemaText.mp ((recognized (schema_at properties) t).mpr ⟨accepted, complete⟩)).1
  exact (plain _ (List.mem_singleton_self _) quote (List.mem_singleton_self _)).2.1 rfl

end JsonGrammar

end Mlxforge
