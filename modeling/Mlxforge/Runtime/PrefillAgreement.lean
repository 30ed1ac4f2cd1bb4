import Mlxforge.Cache.RowSeed
import Mlxforge.Model.RowForward
import Mlxforge.Runtime.Batching

/-!
Every way of running a prefill leaves the same rows. `Consumed` is the invariant of a token
matrix fed chunk by chunk; it holds of each path's cache at each chunk boundary.
-/

namespace Mlxforge

variable {V H Q L : Type} [Slot V]

section chunks
variable {m : DecoderModel V H Q L} {c₀ c : BatchKVCache V} {tokens : KvArray Int} {pos n : Nat}

/-- `c` is `c₀` after the first `pos` columns of `tokens`. -/
structure Consumed (m : DecoderModel V H Q L) (c₀ : BatchKVCache V) (tokens : KvArray Int) (pos : Nat)
    (c : BatchKVCache V) : Prop where
  wf : c.Wf
  batch : c.batch = c₀.batch
  layers : c.layers.length = m.nLayers
  qcfg : c.qcfg = c₀.qcfg
  idx : c.idx = c₀.idx + pos
  leftPadding : c.leftPadding = c₀.leftPadding
  rows : ∀ b < c₀.batch, (m.rowRun c₀.qcfg (c₀.row b, none) (window (tokens.get b) 0 pos)).1 = c.row b
  stocked : 0 < pos → c.Stocked

theorem consumed_zero (tokens : KvArray Int) (wf : c₀.Wf) (layers : c₀.layers.length = m.nLayers) : Consumed m c₀ tokens 0 c₀ where
  wf := wf
  batch := rfl
  layers := layers
  qcfg := rfl
  idx := by simp
  leftPadding := rfl
  rows := fun b _ => by simp [DecoderModel.rowRun]
  stocked := fun h => absurd h (Nat.lt_irrefl 0)

/-- A chunk of `n` columns more; a row past its padding has the chunk's last logits. -/
theorem Consumed.forward (h : Consumed m c₀ tokens pos c) (batch : tokens.batch = c₀.batch) (some : 0 < n)
    (fits : pos + n ≤ tokens.cap) :
    ∃ logits c', m.loaded.forward (tokens.sliceSeq pos (pos + n : Nat)) c = .ok (logits, c') ∧
      Consumed m c₀ tokens (pos + n) c' ∧ logits.batch = c₀.batch ∧ logits.cap = n ∧
      ∀ b < c₀.batch, c₀.padding b - c₀.idx < (pos + n : Nat) →
        (m.rowRun c₀.qcfg (c₀.row b, none) (window (tokens.get b) 0 (pos + n))).2 =
          .some (logits.get b (n - 1)) := by
  have slice : tokens.sliceSeq pos (pos + n : Nat) = ⟨tokens.batch, n, fun b t => tokens.get b (pos + t)⟩ := by
    simp only [KvArray.sliceSeq, clampIndex_natCast, Nat.min_eq_left fits,
      Nat.min_eq_left (show pos ≤ tokens.cap by omega), Nat.add_sub_cancel_left]
  have fed : ∀ b, window (tokens.get b) 0 (pos + n) =
      window (tokens.get b) 0 pos ++ window (fun t => tokens.get b (pos + t)) 0 n := by
    intro b
    have moved := window_shift (tokens.get b) pos 0 n
    rw [Nat.zero_add, Nat.add_comm n pos] at moved
    rw [← window_append _ (Nat.zero_le pos) (Nat.le_add_right pos n), ← moved]
    simp only [Nat.add_comm]
  obtain ⟨logits, c', ok, wf, stocked, lBatch, lCap, cBatch, layers, qcfg, idx, padding, rows⟩ :=
    DecoderModel.forward_spec (m := m) ⟨tokens.batch, n, fun b t => tokens.get b (pos + t)⟩
      h.wf h.layers (batch.trans h.batch.symm) some
  have rows : ∀ b < c₀.batch, m.rowRun c₀.qcfg (c₀.row b, none) (window (tokens.get b) 0 (pos + n)) =
      (c'.row b, if (c.row b).pad < n then .some (logits.get b (n - 1)) else none) := by
    intro b inside
    have step := rows b (h.batch ▸ inside)
      (m.rowRun c₀.qcfg (c₀.row b, none) (window (tokens.get b) 0 pos)).2
    have reached : (c.row b, (m.rowRun c₀.qcfg (c₀.row b, none) (window (tokens.get b) 0 pos)).2) =
        m.rowRun c₀.qcfg (c₀.row b, none) (window (tokens.get b) 0 pos) := by rw [← h.rows b inside]
    rw [reached, h.qcfg] at step
    rw [fed b, DecoderModel.rowRun_append]
    exact step
  refine ⟨logits, c', by rw [slice]; exact ok, ?_, lBatch.trans h.batch, lCap, ?_⟩
  · refine ⟨wf, cBatch.trans h.batch, layers.trans h.layers, qcfg.trans h.qcfg, ?_,
      padding.trans h.leftPadding, fun b inside => by rw [rows b inside], fun _ => stocked⟩
    rw [idx, h.idx]
    simp only [Nat.cast_add]
    omega
  · intro b inside past
    rw [rows b inside]
    have pad : (c.row b).pad < n := by
      simp only [BatchKVCache.row, BatchKVCache.padding, h.leftPadding, h.idx] at past ⊢
      omega
    simp only [if_pos pad]

/-- The logits a row ends with are the last column's. -/
def LastLogits (m : DecoderModel V H Q L) (c₀ : BatchKVCache V) (tokens : KvArray Int) (logits : KvArray L) : Prop :=
  logits.batch = c₀.batch ∧ ∀ b < c₀.batch, c₀.padding b - c₀.idx < tokens.cap →
    (m.rowRun c₀.qcfg (c₀.row b, none) (window (tokens.get b) 0 tokens.cap)).2 =
      some (logits.get b (logits.cap - 1))

theorem chunkLoop_spec {stepSize fuel : Nat} (logits : KvArray L) (positive : 0 < stepSize)
    (h : Consumed m c₀ tokens pos c) (batch : tokens.batch = c₀.batch) (more : pos < tokens.cap)
    (enough : tokens.cap - pos ≤ fuel) :
    ∃ logits' c', chunkLoop m.loaded stepSize tokens fuel pos logits c = .ok (logits', c') ∧
      Consumed m c₀ tokens tokens.cap c' ∧ LastLogits m c₀ tokens logits' := by
  induction fuel generalizing pos c logits with
  | zero => omega
  | succ fuel ih =>
    have size : 0 < min stepSize (tokens.cap - pos) := by omega
    obtain ⟨logits', c', ok, consumed, lBatch, lCap, last⟩ := h.forward batch size (by omega)
    simp only [chunkLoop, if_pos more, ok, ok_bind]
    by_cases done : tokens.cap ≤ pos + stepSize
    · have finished : pos + min stepSize (tokens.cap - pos) = tokens.cap := by omega
      rw [finished] at consumed last
      refine ⟨logits', c', ?_, consumed, lBatch, by rw [lCap]; exact last⟩
      cases fuel with
      | zero => rfl
      | succ fuel => rw [chunkLoop, if_neg (by omega)]
    · have whole : min stepSize (tokens.cap - pos) = stepSize := by omega
      rw [whole] at consumed
      exact ih logits' consumed (by omega) (by omega)

end chunks

/-! ### One prompt by itself -/

namespace DecoderModel

variable (m : DecoderModel V H Q L) (q : KVQuantConfig)

/-- A prompt fed token by token to a row of its own. -/
def solo (prompt : List Int) : RowHistory V × Option L := m.rowRun q (.dummy m.nLayers, none) prompt

variable {m q}

theorem solo_append (xs ys : List Int) : m.rowRun q (m.solo q xs) ys = m.solo q (xs ++ ys) :=
  (m.rowRun_append q _ xs ys).symm

theorem rowStep_real {r : RowHistory V} (real : r.pad = 0) (token : Int) :
    (m.rowStep q r token).1.pad = 0 ∧ (m.rowStep q r token).1.offset = r.offset + 1 ∧
      ∃ l, (m.rowStep q r token).2 = some l := by
  simp only [rowStep, if_neg (show ¬ 0 < r.pad by omega)]
  exact ⟨trivial, trivial, _, rfl⟩

theorem rowRun_real {r : RowHistory V} (real : r.pad = 0) (s : Option L) (tokens : List Int) :
    (m.rowRun q (r, s) tokens).1.pad = 0 ∧ (m.rowRun q (r, s) tokens).1.offset = r.offset + tokens.length ∧
      (tokens ≠ [] → ∃ l, (m.rowRun q (r, s) tokens).2 = some l) := by
  induction tokens generalizing r s with
  | nil => exact ⟨real, by simp [rowRun], fun h => absurd rfl h⟩
  | cons t tokens ih =>
    obtain ⟨pad, offset, l, logits⟩ := rowStep_real (m := m) (q := q) real t
    obtain ⟨pad', offset', logits'⟩ := ih pad (m.rowStep q r t).2
    refine ⟨pad', ?_, fun _ => ?_⟩
    · rw [show m.rowRun q (r, s) (t :: tokens) = m.rowRun q (m.rowStep q r t) tokens from rfl,
        show m.rowStep q r t = ((m.rowStep q r t).1, (m.rowStep q r t).2) from rfl, offset', offset,
        List.length_cons, Nat.cast_add, Nat.cast_one]
      omega
    · cases tokens with
      | nil => exact ⟨l, logits⟩
      | cons t' tokens => exact logits' (by simp)

theorem solo_row (prompt : List Int) : (m.solo q prompt).1 = ⟨0, prompt.length, (m.solo q prompt).1.layers⟩ := by
  obtain ⟨pad, offset, _⟩ := rowRun_real (m := m) (q := q) (r := .dummy m.nLayers) rfl none prompt
  have offset : (m.solo q prompt).1.offset = prompt.length := by simpa [solo, RowHistory.dummy] using offset
  have pad : (m.solo q prompt).1.pad = 0 := pad
  rw [← pad, ← offset]

theorem solo_logits {prompt : List Int} (some : prompt ≠ []) : ∃ l, (m.solo q prompt).2 = .some l :=
  (rowRun_real (r := .dummy m.nLayers) rfl none prompt).2.2 some

/-- Left padding passes by without a trace. -/
theorem rowRun_padding (pad : Nat) (padId : Int) (prompt : List Int) :
    m.rowRun q (⟨pad, -pad, List.replicate m.nLayers []⟩, none) (List.replicate pad padId ++ prompt) =
      m.solo q prompt := by
  induction pad with
  | zero => rfl
  | succ pad ih =>
    rw [List.replicate_succ, List.cons_append, ← ih]
    simp only [rowRun, List.foldl_cons, rowStep, if_pos (Nat.succ_pos pad), Nat.add_sub_cancel]
    rw [show (-((pad + 1 : Nat) : Int) + 1) = -(pad : Int) by omega]

end DecoderModel

/-! ### Where each path starts -/

section seeds
variable {m : DecoderModel V H Q L} {q : KVQuantConfig} {prompts : List (List Int)} {c₀ c : BatchKVCache V}
  {tokens : KvArray Int}

/-- Feeding `tokens` to `c₀` feeds every prompt to a row of its own. -/
structure Seeded (m : DecoderModel V H Q L) (q : KVQuantConfig) (prompts : List (List Int))
    (c₀ : BatchKVCache V) (tokens : KvArray Int) : Prop where
  wf : c₀.Wf
  layers : c₀.layers.length = m.nLayers
  qcfg : c₀.qcfg = q
  batch : c₀.batch = prompts.length
  rows : tokens.batch = c₀.batch
  columns : 0 < tokens.cap
  feeds : ∀ b p, prompts[b]? = .some p →
    m.rowRun q (c₀.row b, none) (window (tokens.get b) 0 tokens.cap) = m.solo q p
  span : ∀ b p, prompts[b]? = .some p →
    c₀.idx + tokens.cap - c₀.padding b = p.length ∧ c₀.padding b - c₀.idx < tokens.cap

/-- `c` and `last` are what each prompt alone would leave: its K/V, its offset, its visible span and its
next-token logits. -/
structure Prefilled (m : DecoderModel V H Q L) (q : KVQuantConfig) (prompts : List (List Int))
    (c : BatchKVCache V) (last : List L) : Prop where
  wf : c.Wf
  stocked : c.Stocked
  layers : c.layers.length = m.nLayers
  qcfg : c.qcfg = q
  batch : c.batch = prompts.length
  lastCount : last.length = prompts.length
  row : ∀ b p, prompts[b]? = some p → (c.row b, last[b]?) = m.solo q p ∧ c.idx - c.padding b = p.length

theorem Consumed.prefilled {logits : KvArray L} (seeded : Seeded m q prompts c₀ tokens)
    (consumed : Consumed m c₀ tokens tokens.cap c) (last : LastLogits m c₀ tokens logits) :
    Prefilled m q prompts c (lastColumn logits) where
  wf := consumed.wf
  stocked := consumed.stocked seeded.columns
  layers := consumed.layers
  qcfg := consumed.qcfg.trans seeded.qcfg
  batch := consumed.batch.trans seeded.batch
  lastCount := by simp [lastColumn, last.1, seeded.batch]
  row := by
    intro b p at_b
    have inside : b < c₀.batch := seeded.batch ▸ (List.getElem?_eq_some_iff.mp at_b).1
    obtain ⟨span, past⟩ := seeded.span b p at_b
    have fed := seeded.feeds b p at_b
    have row := consumed.rows b inside
    have logit := last.2 b inside past
    rw [seeded.qcfg, fed] at row logit
    refine ⟨Prod.ext row.symm ?_, ?_⟩
    · rw [logit]
      simp [lastColumn, last.1, inside]
    · simp only [BatchKVCache.padding, consumed.idx, consumed.leftPadding] at span ⊢
      exact span

/-! ### The batched cold prefill -/

omit [Slot V] in
theorem le_maxLength {prompts : List (List Int)} {p : List Int} (member : p ∈ prompts) :
    p.length ≤ maxLength prompts := by
  have grows : ∀ (xs : List (List Int)) (n : Nat), n ≤ xs.foldl (fun p ids => max p ids.length) n ∧
      ∀ p ∈ xs, p.length ≤ xs.foldl (fun p ids => max p ids.length) n := by
    intro xs
    induction xs with
    | nil => simp
    | cons x xs ih =>
      intro n
      obtain ⟨start, rest⟩ := ih (max n x.length)
      refine ⟨(Nat.le_max_left _ _).trans start, fun p hp => ?_⟩
      rcases List.mem_cons.mp hp with rfl | hp
      · exact (Nat.le_max_right _ _).trans start
      · exact rest p hp
  exact (grows prompts 0).2 p member

/-- Row `b` of the padded matrix is its padding, then its prompt. -/
theorem leftPad_row {padId : Int} {b : Nat} {p : List Int} (at_b : prompts[b]? = some p) :
    window ((leftPad prompts padId).2.get b) 0 (maxLength prompts) =
      List.replicate (maxLength prompts - p.length) padId ++ p := by
  have le := le_maxLength (List.mem_of_getElem? at_b)
  apply List.ext_getElem
  · simp; omega
  · intro j h₁ h₂
    simp only [window_getElem, Nat.zero_add, leftPad, List.getD_eq_getElem?_getD, at_b, Option.getD_some,
      List.getElem_append, List.length_replicate, List.getElem_replicate]
    by_cases padded : j < maxLength prompts - p.length
    · rw [if_pos padded, dif_pos padded]
    · rw [if_neg padded, dif_neg padded, List.getElem?_eq_getElem (by simp at h₁; omega), Option.getD_some]

theorem cold_seeded {kStep : Nat} (padId : Int) (step : 0 < kStep) (some : prompts ≠ [])
    (nonempty : ∀ p ∈ prompts, p ≠ []) :
    Seeded m q prompts (.new kStep m.nLayers (leftPad prompts padId).1 q) (leftPad prompts padId).2 where
  wf := BatchKVCache.new_wf step (by simp [leftPad])
  layers := by simp [BatchKVCache.new]
  qcfg := rfl
  batch := by simp [BatchKVCache.new, leftPad]
  rows := by simp [BatchKVCache.new, leftPad]
  columns := by
    obtain ⟨p, member⟩ := List.exists_mem_of_ne_nil _ some
    have le := le_maxLength member
    have pos := List.length_pos_of_ne_nil (nonempty p member)
    exact Nat.lt_of_lt_of_le pos le
  feeds := by
    intro b p at_b
    have inside := (List.getElem?_eq_some_iff.mp at_b).1
    have row : (BatchKVCache.new kStep m.nLayers (leftPad prompts padId).1 q : BatchKVCache V).row b =
        ⟨maxLength prompts - p.length, -((maxLength prompts - p.length : Nat) : Int), List.replicate m.nLayers []⟩ := by
      rw [← BatchKVCache.rows_getElem (by simpa [BatchKVCache.new, leftPad] using inside)]
      simp [BatchKVCache.new_rows, leftPad, (List.getElem?_eq_some_iff.mp at_b).2]
    rw [row, show (leftPad prompts padId).2.cap = maxLength prompts from rfl, leftPad_row at_b,
      DecoderModel.rowRun_padding]
  span := by
    intro b p at_b
    have le := le_maxLength (List.mem_of_getElem? at_b)
    have pos := List.length_pos_of_ne_nil (nonempty p (List.mem_of_getElem? at_b))
    have pad : (BatchKVCache.new kStep m.nLayers (leftPad prompts padId).1 q : BatchKVCache V).padding b =
        (maxLength prompts - p.length : Nat) := by
      simp [BatchKVCache.padding, BatchKVCache.new, leftPad, at_b]
    rw [pad]
    simp only [BatchKVCache.new, leftPad]
    omega

/-! ### A prompt behind a pooled prefix -/

/-- The blocks hold the K/V of the prompt's first `len` tokens, a proper prefix. -/
structure HoldsPrefix (m : DecoderModel V H Q L) (q : KVQuantConfig) (bs : Nat) (blocks : List (KVBlock V))
    (len : Nat) (prompt : List Int) : Prop where
  blockSize : 0 < bs
  some : 0 < len
  proper : len < prompt.length
  covered : len ≤ blocks.length * bs
  shaped : ∀ b ∈ blocks, b.Shaped bs m.nLayers q.components
  holds : ((List.range m.nLayers).map fun l => (blocks.flatMap fun b => b.entries bs l).take len) =
    (m.solo q (prompt.take len)).1.layers

theorem warm_seeded {kStep bs len : Nat} {blocks : List (KVBlock V)} {prompt : List Int} (step : 0 < kStep)
    (held : HoldsPrefix m q bs blocks len prompt) :
    ∃ c₀, BatchKVCache.fromPrefix kStep m.nLayers blocks len q = .ok c₀ ∧
      Seeded m q [prompt] c₀ (suffixTokens prompt len) := by
  obtain ⟨c₀, ok, wf, _, rows, layers, qcfg, idx, leftPadding⟩ := BatchKVCache.fromPrefix_spec q
    step held.blockSize held.some held.covered held.shaped
  have proper := held.proper
  have batch : c₀.batch = 1 := by rw [← BatchKVCache.rows_length, rows]; rfl
  have padding : c₀.padding 0 = 0 := by simp [BatchKVCache.padding, leftPadding]
  have seed : c₀.row 0 = (m.solo q (prompt.take len)).1 := by
    have first : c₀.rows[0]? = .some (c₀.row 0) := by
      rw [List.getElem?_eq_getElem (by simp [batch]), BatchKVCache.rows_getElem]
    rw [rows, held.holds] at first
    rw [DecoderModel.solo_row, List.length_take, Nat.min_eq_left (Nat.le_of_lt proper)]
    exact (Option.some.inj first).symm
  have suffix : window ((suffixTokens prompt len).get 0) 0 (suffixTokens prompt len).cap = prompt.drop len := by
    apply List.ext_getElem
    · simp [suffixTokens]
    · intro j h₁ h₂
      have inside : len + j < prompt.length := by simp at h₂; omega
      simp [suffixTokens, inside]
  have only : ∀ b p, [prompt][b]? = .some p → b = 0 ∧ p = prompt := by
    intro b p at_b
    cases b with
    | zero => exact ⟨rfl, by simpa using at_b.symm⟩
    | succ b => simp at at_b
  refine ⟨c₀, ok, wf, layers, qcfg, batch, batch.symm, ?_, ?_, ?_⟩
  · simp only [suffixTokens]; omega
  · intro b p at_b
    obtain ⟨rfl, rfl⟩ := only b p at_b
    have logits : ∀ s s', m.rowRun q (c₀.row 0, s) (p.drop len) = m.rowRun q (c₀.row 0, s') (p.drop len) := by
      intro s s'
      cases rest : p.drop len with
      | nil => rw [List.drop_eq_nil_iff] at rest; omega
      | cons t ts => rfl
    rw [suffix, logits none (m.solo q (p.take len)).2, seed, DecoderModel.solo_append, List.take_append_drop]
  · intro b p at_b
    obtain ⟨rfl, rfl⟩ := only b p at_b
    rw [padding, idx]
    simp only [suffixTokens]
    omega

/-! ### Agreement -/

theorem prefill_spec {kStep stepSize : Nat} (padId : Int) (step : 0 < kStep) (positive : 0 < stepSize)
    (some : prompts ≠ []) (nonempty : ∀ p ∈ prompts, p ≠ []) :
    ∃ r, prefill m.loaded kStep prompts stepSize padId q = .ok r ∧ Prefilled m q prompts r.cache r.lastLogits := by
  have seeded := cold_seeded (m := m) (q := q) padId step some nonempty
  obtain ⟨logits, c', ok, consumed, last⟩ := chunkLoop_spec (m := m)
    ⟨prompts.length, 1, fun _ _ => m.zeroLogits⟩ positive
    (consumed_zero (leftPad prompts padId).2 seeded.wf seeded.layers) seeded.rows seeded.columns le_rfl
  refine ⟨⟨c', lastColumn logits, (leftPad prompts padId).1⟩, ?_, consumed.prefilled seeded last⟩
  simp only [prefill, DecoderModel.loaded_nLayers, DecoderModel.loaded_zeroLogits]
  rw [Nat.sub_zero] at ok
  rw [ok]
  rfl

theorem prefillWithPrefix_spec {kStep stepSize bs len : Nat} {blocks : List (KVBlock V)} {prompt : List Int}
    (step : 0 < kStep) (positive : 0 < stepSize) (held : HoldsPrefix m q bs blocks len prompt) :
    ∃ r, prefillWithPrefix m.loaded kStep prompt blocks len stepSize q = .ok r ∧
      Prefilled m q [prompt] r.cache r.lastLogits := by
  obtain ⟨c₀, seed, seeded⟩ := warm_seeded (m := m) step held
  obtain ⟨logits, c', ok, consumed, last⟩ := chunkLoop_spec (m := m)
    ⟨1, 1, fun _ _ => m.zeroLogits⟩ positive
    (consumed_zero (suffixTokens prompt len) seeded.wf seeded.layers) seeded.rows seeded.columns le_rfl
  refine ⟨⟨c', lastColumn logits, [0]⟩, ?_, consumed.prefilled seeded last⟩
  simp only [prefillWithPrefix, DecoderModel.loaded_nLayers, DecoderModel.loaded_zeroLogits, seed, ok_bind]
  rw [Nat.sub_zero] at ok
  rw [ok]
  rfl

/-- A unit of the interleaved prefill with columns still to feed. -/
structure PendingPrefill.Good {R : Type} (m : DecoderModel V H Q L) (q : KVQuantConfig)
    (prompts : List (List Int)) (p : PendingPrefill R V) : Prop where
  total : p.nTotal = p.tokens.cap
  more : p.pos < p.nTotal
  fed : ∃ c₀, Seeded m q prompts c₀ p.tokens ∧ Consumed m c₀ p.tokens p.pos p.cache

theorem PendingPrefill.cold_good {R : Type} {kStep : Nat} (reqs : List R) (step : 0 < kStep)
    (some : prompts ≠ []) (nonempty : ∀ p ∈ prompts, p ≠ []) :
    (PendingPrefill.cold (V := V) m.loaded kStep reqs prompts q).Good m q prompts := by
  have seeded := cold_seeded (m := m) (q := q) 0 step some nonempty
  exact ⟨rfl, seeded.columns, _, seeded, consumed_zero _ seeded.wf seeded.layers⟩

theorem PendingPrefill.warm_good {R : Type} {kStep bs len : Nat} (r : R) {blocks : List (KVBlock V)}
    {prompt : List Int} (step : 0 < kStep) (held : HoldsPrefix m q bs blocks len prompt) :
    ∃ u, PendingPrefill.warm m.loaded kStep r prompt blocks len q = .ok u ∧ u.reqs = [r] ∧ u.Good m q [prompt] := by
  obtain ⟨c₀, seed, seeded⟩ := warm_seeded (m := m) step held
  refine ⟨{ reqs := [r], tokens := suffixTokens prompt len, cache := c₀, nTotal := (suffixTokens prompt len).cap,
            reusedTokens := len }, ?_, rfl, rfl, seeded.columns, c₀, seeded,
    consumed_zero _ seeded.wf seeded.layers⟩
  simp only [PendingPrefill.warm, DecoderModel.loaded_nLayers, seed, ok_bind]
  rfl

/-- One turn feeds a chunk; the turn that feeds the last one hands over what each prompt alone leaves. -/
theorem PendingPrefill.advance_spec {R : Type} {chunk : Nat} {u : PendingPrefill R V} (positive : 0 < chunk)
    (good : u.Good m q prompts) :
    ∃ u' last, u.advance m.loaded chunk = .ok (u', last) ∧ u'.reqs = u.reqs ∧ u'.reusedTokens = u.reusedTokens ∧
      ((last = none ∧ u'.Good m q prompts ∧ u'.nTotal = u.nTotal ∧ u.pos < u'.pos) ∨
        ∃ logits, last = some logits ∧ Prefilled m q prompts u'.cache logits) := by
  obtain ⟨total, more, c₀, seeded, consumed⟩ := good
  have size : 0 < min chunk (u.nTotal - u.pos) := by omega
  obtain ⟨logits, c', ok, consumed', lBatch, lCap, last⟩ := consumed.forward (n := min chunk (u.nTotal - u.pos))
    seeded.rows size (by omega)
  let u' := { u with cache := c', pos := u.pos + min chunk (u.nTotal - u.pos) }
  refine ⟨u', if u'.pos < u'.nTotal then none else some (lastColumn logits), ?_, rfl, rfl, ?_⟩
  · simp only [PendingPrefill.advance, ok, ok_bind]
    rfl
  · by_cases unfinished : u'.pos < u'.nTotal
    · rw [if_pos unfinished]
      exact Or.inl ⟨rfl, ⟨total, unfinished, c₀, seeded, consumed'⟩, rfl, by simp only [u']; omega⟩
    · rw [if_neg unfinished]
      have finished : u.pos + min chunk (u.nTotal - u.pos) = u.tokens.cap := by
        simp only [u'] at unfinished; omega
      rw [finished] at consumed' last
      refine Or.inr ⟨_, rfl, consumed'.prefilled seeded ⟨lBatch, fun b inside past => ?_⟩⟩
      rw [lCap]
      exact last b inside past

theorem PendingPrefill.run_spec {R : Type} {chunk : Nat} (fuel : Nat) {u : PendingPrefill R V} (positive : 0 < chunk)
    (good : u.Good m q prompts) (enough : u.nTotal - u.pos ≤ fuel) :
    ∃ u' logits, u.run m.loaded chunk fuel = .ok (some (u', logits)) ∧ Prefilled m q prompts u'.cache logits := by
  induction fuel generalizing u with
  | zero =>
    have := good.more
    omega
  | succ fuel ih =>
    obtain ⟨u', last, ok, _, _, ⟨rfl, good', total, later⟩ | ⟨logits, rfl, done⟩⟩ :=
      PendingPrefill.advance_spec (m := m) positive good
    · obtain ⟨u'', logits, rest, done⟩ := ih good' (by have := good.more; omega)
      refine ⟨u'', logits, ?_, done⟩
      simp only [PendingPrefill.run, ok, ok_bind]
      exact rest
    · refine ⟨u', logits, ?_, done⟩
      simp only [PendingPrefill.run, ok, ok_bind]
      rfl

omit [Slot V] in
/-- Per row: the visible K/V and the offset, `idx - left_padding`, and the logits handed to sampling. -/
def outcomes (c : BatchKVCache V) (last : List L) : List (RowHistory V × Int × L) :=
  List.zipWith (fun b l => (c.row b, c.idx - c.padding b, l)) (List.range c.batch) last

def DecoderModel.soloOutcome (m : DecoderModel V H Q L) (q : KVQuantConfig) (p : List Int) :
    RowHistory V × Int × L :=
  ((m.solo q p).1, p.length, (m.solo q p).2.getD m.zeroLogits)

theorem Prefilled.outcomes {last : List L} (h : Prefilled m q prompts c last) :
    outcomes c last = prompts.map (m.soloOutcome q) := by
  apply List.ext_getElem
  · simp [Mlxforge.outcomes, h.batch, h.lastCount]
  · intro b h₁ h₂
    have inside : b < prompts.length := by simpa using h₂
    obtain ⟨row, span⟩ := h.row b prompts[b] (List.getElem?_eq_getElem inside)
    rw [List.getElem?_eq_getElem (h.lastCount ▸ inside)] at row
    simp only [Mlxforge.outcomes, List.getElem_zipWith, List.getElem_range, List.getElem_map,
      DecoderModel.soloOutcome, span, ← row, Option.getD_some]

/-- Batched or alone, at once or chunked, cold or behind a pooled prefix: a prompt's rows and its next-token
logits are the same. -/
theorem prefill_agree {kStep stepSize : Nat} (padId : Int) (step : 0 < kStep) (positive : 0 < stepSize)
    (some : prompts ≠ []) (nonempty : ∀ p ∈ prompts, p ≠ []) :
    ∃ r, prefill m.loaded kStep prompts stepSize padId q = .ok r ∧
      ∀ kStep' stepSize' chunk : Nat, 0 < kStep' → 0 < stepSize' → 0 < chunk →
        (∃ r', prefill m.loaded kStep' prompts stepSize' padId q = .ok r' ∧
          outcomes r'.cache r'.lastLogits = outcomes r.cache r.lastLogits) ∧
        (∃ u last, (PendingPrefill.cold m.loaded kStep' prompts prompts q).run m.loaded chunk (maxLength prompts) =
            .ok (.some (u, last)) ∧ outcomes u.cache last = outcomes r.cache r.lastLogits) ∧
        ∀ (b : Nat) (p : List Int) (bs : Nat) (blocks : List (KVBlock V)) (len : Nat), prompts[b]? = .some p → HoldsPrefix m q bs blocks len p →
          (∃ r', prefillWithPrefix m.loaded kStep' p blocks len stepSize' q = .ok r' ∧
            outcomes r'.cache r'.lastLogits = ((outcomes r.cache r.lastLogits)[b]?).toList) ∧
          ∃ u u' last, PendingPrefill.warm m.loaded kStep' p p blocks len q = .ok u ∧
            u.run m.loaded chunk p.length = .ok (.some (u', last)) ∧
            outcomes u'.cache last = ((outcomes r.cache r.lastLogits)[b]?).toList := by
  obtain ⟨r, ok, filled⟩ := prefill_spec (m := m) (q := q) padId step positive some nonempty
  refine ⟨r, ok, fun kStep' stepSize' chunk step' positive' chunked => ⟨?_, ?_, ?_⟩⟩
  · obtain ⟨r', ok', filled'⟩ := prefill_spec (m := m) (q := q) padId step' positive' some nonempty
    exact ⟨r', ok', by rw [filled.outcomes, filled'.outcomes]⟩
  · have good := PendingPrefill.cold_good (m := m) (q := q) prompts step' some nonempty
    obtain ⟨u, last, ran, filled'⟩ := PendingPrefill.run_spec (maxLength prompts) chunked good
      (Nat.sub_le _ _)
    exact ⟨u, last, ran, by rw [filled.outcomes, filled'.outcomes]⟩
  · intro b p bs blocks len at_b held
    have alone : ((outcomes r.cache r.lastLogits)[b]?).toList = [p].map (m.soloOutcome q) := by
      rw [filled.outcomes, List.getElem?_map, at_b]
      rfl
    rw [alone]
    constructor
    · obtain ⟨r', ok', filled'⟩ := prefillWithPrefix_spec (m := m) step' positive' held
      exact ⟨r', ok', filled'.outcomes⟩
    · obtain ⟨u, ok', _, good⟩ := PendingPrefill.warm_good p step' held
      have total : u.nTotal - u.pos ≤ p.length := by
        have size := good.total
        simp only [PendingPrefill.warm] at ok'
        obtain ⟨c₀, _, made⟩ := bind_ok ok'
        obtain rfl := pure_ok made
        simp only [suffixTokens]
        omega
      obtain ⟨u', last, ran, filled'⟩ := PendingPrefill.run_spec p.length chunked good total
      exact ⟨u, u', last, ok', ran, filled'.outcomes⟩

end seeds

section witness

/-- One layer over the integers: positions shift queries and keys, attention adds up what it sees. -/
def tinyModel : DecoderModel Int Int Int Int where
  nLayers := 1
  embed := id
  projectQkv := fun _ h => (h, h, h)
  ropeQ := fun pos x => x + pos
  ropeK := fun pos x => x + pos
  sdpa := fun _ q es => q + (es.map fun e => e.k.sum * e.v.sum).sum
  oProj := fun _ x => x
  add := (· + ·)
  postAttentionLayernorm := fun _ x => x
  feedForward := fun _ x => x
  norm := id
  lmHead := id
  zeroLogits := 0

theorem prefill_agree_pair : ∃ r r', prefill tinyModel.loaded 256 [[5], [2, 3]] 1 0 {} = .ok r ∧
    prefillWithPrefix tinyModel.loaded 16 [2, 3] [⟨[[⟨1, 1, fun _ _ => 2⟩]], [[⟨1, 1, fun _ _ => 2⟩]], 0⟩] 1 2048 {} = .ok r' ∧
    outcomes r'.cache r'.lastLogits = ((outcomes r.cache r.lastLogits)[1]?).toList := by
  obtain ⟨r, ok, agree⟩ := prefill_agree (m := tinyModel) (q := {}) 0 (show 0 < 256 by decide)
    (show 0 < 1 by decide) (show [[5], [2, 3]] ≠ [] by decide) (by decide)
  obtain ⟨_, _, warm⟩ := agree 16 2048 1 (by decide) (by decide) (by decide)
  have held : HoldsPrefix tinyModel {} 1 [⟨[[⟨1, 1, fun _ _ => 2⟩]], [[⟨1, 1, fun _ _ => 2⟩]], 0⟩] 1 [2, 3] := by
    refine ⟨by decide, by decide, by decide, by decide, ?_, by decide⟩
    intro b member
    obtain rfl := List.mem_singleton.mp member
    constructor <;> intro l inside <;> obtain rfl : l = 0 := Nat.lt_one_iff.mp inside
    · rfl
    · rfl
    · simp [Stored]
    · simp [Stored]
  obtain ⟨⟨r', ok', same⟩, _⟩ := warm 1 [2, 3] 1 _ 1 rfl held
  exact ⟨r, r', ok, ok', same⟩

end witness

end Mlxforge
