import Neos.Console.Runs

/-!
# The buffer of the collected sequence

The lexers append to the buffer `sequence` without a check of their own, and the
executor moves its head back over the character it stops at.  What keeps both inside
the buffer is the check that follows every append: a sequence that is still being
collected has room for one more byte.  The indices read by the executor are those of the
`int` the source uses as its head.
-/

namespace Neos.Console

variable {c : Console} {code : UInt8}

/-! ## The indices that are accessed -/

/-- The head of `con_execute` and the indices of `sequence` read so far, the last one
first. -/
structure Reader where
  head : ℤ
  reads : List ℤ

namespace Reader

/-- `con_next_char`. -/
def nextChar (sequence : List UInt8) (last : ℤ) (r : Reader) : UInt8 × Reader :=
  if r.head > last then (0, r)
  else (sequence.getD r.head.toNat 0, { head := r.head + 1, reads := r.head :: r.reads })

/-- The loop of `con_next_int`. -/
def nextIntLoop (sequence : List UInt8) (last fallback : ℤ) :
    ℕ → Bool → ℤ → Reader → ℤ × Reader
  | 0, first, accumulator, r => (if first then fallback else accumulator, r)
  | fuel + 1, first, accumulator, r =>
      let next := r.nextChar sequence last
      if isDigit next.1 then
        nextIntLoop sequence last fallback fuel false
          (wrapInt (accumulator * 10 + (next.1.toNat - 48))) next.2
      else
        -- the non-digit is put back, also when there was none to read
        (if first then fallback else accumulator, { next.2 with head := next.2.head - 1 })

/-- `con_next_int`. -/
def nextInt (sequence : List UInt8) (last fallback : ℤ) (r : Reader) : ℤ × Reader :=
  nextIntLoop sequence last fallback (sequence.length + 1) true 0 r

/-- The loop of `con_sgr_execute`. -/
def sgrLoop (sequence : List UInt8) (last : ℤ) : ℕ → Reader → Reader
  | 0, r => r
  | fuel + 1, r =>
      if r.head < last then
        let arg := r.nextInt sequence last (-1)
        let skipped := arg.2.nextChar sequence last
        if arg.1 = -1 then skipped.2 else sgrLoop sequence last fuel skipped.2
      else r

/-- What `con_csi_execute` reads. -/
def csiExecute (sequence : List UInt8) (last : ℤ) (r : Reader) : Reader :=
  let code := sequence.getD last.toNat 0
  let r := { r with reads := last :: r.reads }
  if code = ansiCsiCuu ∨ code = ansiCsiCud ∨ code = ansiCsiCuf ∨ code = ansiCsiCub ∨
      code = ansiCsiCnl ∨ code = ansiCsiSu ∨ code = ansiCsiSd then
    (r.nextInt sequence last 1).2
  else if code = ansiCsiCup ∨ code = ansiCsiHvp then
    let skipped := (r.nextInt sequence last 1).2.nextChar sequence last
    (skipped.2.nextInt sequence last 1).2
  else if code = ansiCsiEd ∨ code = ansiCsiEl then (r.nextInt sequence last 0).2
  else if code = ansiCsiSgr then r.sgrLoop sequence last last.toNat
  else r

end Reader

/-- The indices that `con_execute` reads. -/
def executeReads (c : Console) : List ℤ :=
  let last : ℤ := c.sequence.length - 1
  let r : Reader := { head := 1, reads := [0] }
  if c.sequence.getD 0 0 = ansiCsi then (r.csiExecute c.sequence last).reads else r.reads

/-- The console after a byte is appended to the sequence. -/
def append (c : Console) (code : UInt8) : Console := { c with sequence := c.sequence ++ [code] }

/-- A byte completes the sequence it is appended to. -/
def Completes (c : Console) (code : UInt8) : Prop :=
  match c.outputLexer with
  | .csi => ansiCsiFinal code
  | .untilSt => code = ansiSt ∧ (c.append code).sequence.length > 1 ∧
      (c.append code).sequence.getD ((c.append code).sequence.length - 2) 0 = ansiEscape
  | _ => False

instance (c : Console) (code : UInt8) : Decidable (c.Completes code) := by
  unfold Completes
  split <;> infer_instance

/-- The console in which `con_write` calls `con_execute`. -/
def executed (c : Console) (code : UInt8) : Option Console :=
  if c.Completes code then some (c.append code) else none

/-- The indices of `sequence` that `con_write` stores to. -/
def stores (c : Console) (code : UInt8) : List ℕ :=
  match c.outputLexer with
  | .initial =>
      if c.shortcuts ∧ (code = ansiEscCsi ∨ code = ansiEscDcs ∨ code = ansiEscOsc) then
        List.range consoleMaxAnsiSequence ++ [0]
      else []
  | .escape => List.range consoleMaxAnsiSequence ++ [0]
  | .csi => [c.sequence.length]
  | .untilSt => [c.sequence.length]

/-- The index of `sequence` that `con_lexer_until_st` reads itself. -/
def lexerReads (c : Console) (code : UInt8) : List ℤ :=
  if c.outputLexer = .untilSt ∧ code = ansiSt ∧ (c.append code).sequence.length > 1 then
    [((c.append code).sequence.length : ℤ) - 2]
  else []

/-! ## The executor stays in the sequence -/

/-- The head is one behind the last character at most, and only characters of the sequence
were read. -/
structure Reader.Within (last : ℤ) (r : Reader) : Prop where
  one_le : 1 ≤ r.head
  le : r.head ≤ last + 1
  reads : ∀ i ∈ r.reads, 0 ≤ i ∧ i ≤ last

section Reader

open Reader

variable {sequence : List UInt8} {last : ℤ} {r : Reader}

theorem Reader.Within.read {i : ℤ} (h : r.Within last) (h₀ : 0 ≤ i) (h₁ : i ≤ last) :
    ∀ j ∈ i :: r.reads, 0 ≤ j ∧ j ≤ last := by
  intro j hj
  rcases List.mem_cons.mp hj with rfl | hj
  · exact ⟨h₀, h₁⟩
  · exact h.reads j hj

theorem Reader.Within.nextChar (h : r.Within last) :
    (r.nextChar sequence last).2.Within last := by
  have hone := h.one_le
  unfold Reader.nextChar
  split
  · exact h
  · rename_i hle
    exact ⟨by simp only; omega, by simp only; omega, h.read (by omega) (by omega)⟩

/-- Putting a character back never moves the head in front of the first parameter. -/
theorem Reader.Within.unput (h : r.Within last) (hlast : 1 ≤ last) :
    Within last { (r.nextChar sequence last).2 with
      head := (r.nextChar sequence last).2.head - 1 } := by
  have hone := h.one_le
  have hle := h.le
  refine ⟨?_, ?_, h.nextChar.reads⟩ <;> unfold Reader.nextChar <;> simp only <;> split <;>
    simp only <;> omega

theorem Reader.Within.nextIntLoop (hlast : 1 ≤ last) (fallback : ℤ) :
    ∀ (fuel : ℕ) (first : Bool) (n : ℤ) (r : Reader), r.Within last →
      (nextIntLoop sequence last fallback fuel first n r).2.Within last
  | 0, _, _, _, h => h
  | fuel + 1, first, n, r, h => by
      unfold Reader.nextIntLoop
      simp only
      split
      · exact Within.nextIntLoop hlast fallback fuel _ _ _ h.nextChar
      · exact h.unput hlast

theorem Reader.Within.nextInt (h : r.Within last) (hlast : 1 ≤ last) (fallback : ℤ) :
    (r.nextInt sequence last fallback).2.Within last :=
  Within.nextIntLoop hlast fallback _ _ _ _ h

theorem Reader.Within.sgrLoop (hlast : 1 ≤ last) :
    ∀ (fuel : ℕ) (r : Reader), r.Within last → (r.sgrLoop sequence last fuel).Within last
  | 0, _, h => h
  | fuel + 1, r, h => by
      have hskipped : ((r.nextInt sequence last (-1)).2.nextChar sequence last).2.Within last :=
        (h.nextInt hlast (-1)).nextChar
      unfold Reader.sgrLoop
      split
      · simp only
        split
        · exact hskipped
        · exact Within.sgrLoop hlast fuel _ hskipped
      · exact h

theorem Reader.Within.csiExecute (h : r.Within last) (hlast : 1 ≤ last) :
    (r.csiExecute sequence last).Within last := by
  have hcode : Within last { r with reads := last :: r.reads } :=
    ⟨h.one_le, h.le, h.read (by omega) le_rfl⟩
  unfold Reader.csiExecute
  simp only
  split
  · exact hcode.nextInt hlast 1
  split
  · exact ((hcode.nextInt hlast 1).nextChar).nextInt hlast 1
  split
  · exact hcode.nextInt hlast 0
  split
  · exact Within.sgrLoop hlast _ _ hcode
  · exact hcode

/-! The loops end by their own tests: more fuel changes nothing. -/

theorem Reader.nextIntLoop_ends (fallback : ℤ) :
    ∀ (fuel : ℕ) (first : Bool) (n : ℤ) (r : Reader), last + 2 ≤ r.head + fuel →
      r.head ≤ last + 1 → ∀ more, nextIntLoop sequence last fallback (fuel + more) first n r =
        nextIntLoop sequence last fallback fuel first n r
  | 0, _, _, r, hfuel, hle, _ => by omega
  | fuel + 1, first, n, r, hfuel, hle, more => by
      rw [Nat.add_right_comm]
      unfold Reader.nextIntLoop
      by_cases hin : r.head > last
      · have hnext : r.nextChar sequence last = (0, r) := if_pos hin
        have hzero : isDigit 0 = false := by decide
        simp [hnext, hzero]
      · have hhead : (r.nextChar sequence last).2.head = r.head + 1 := by
          rw [Reader.nextChar, if_neg hin]
        simp only
        split
        · exact nextIntLoop_ends fallback fuel _ _ _ (by omega) (by omega) more
        · rfl

/-- Reading a parameter moves the head forward, to a character that is still in the
sequence. -/
theorem Reader.nextIntLoop_head (fallback : ℤ) {k : ℤ} (hk : k ≤ last) :
    ∀ (fuel : ℕ) (first : Bool) (n : ℤ) (r : Reader), last + 2 ≤ r.head + fuel →
      r.head ≤ last + 1 → k ≤ r.head →
        k ≤ (nextIntLoop sequence last fallback fuel first n r).2.head ∧
          (nextIntLoop sequence last fallback fuel first n r).2.head ≤ last
  | 0, _, _, r, hfuel, hle, _ => by omega
  | fuel + 1, first, n, r, hfuel, hle, hkr => by
      unfold Reader.nextIntLoop
      by_cases hin : r.head > last
      · have hnext : r.nextChar sequence last = (0, r) := if_pos hin
        have hzero : isDigit 0 = false := by decide
        simp only [hnext, hzero, Bool.false_eq_true, if_false]
        omega
      · have hhead : (r.nextChar sequence last).2.head = r.head + 1 := by
          rw [Reader.nextChar, if_neg hin]
        simp only
        split
        · exact nextIntLoop_head fallback hk fuel _ _ _ (by omega) (by omega) (by omega)
        · simp only
          omega

theorem Reader.nextInt_head (hlen : last < sequence.length) (hone : 1 ≤ r.head)
    (hle : r.head ≤ last) (fallback : ℤ) :
    r.head ≤ (r.nextInt sequence last fallback).2.head ∧
      (r.nextInt sequence last fallback).2.head ≤ last :=
  nextIntLoop_head fallback hle _ _ _ _ (by omega) (by omega) le_rfl

theorem Reader.sgrLoop_ends (hlen : last < sequence.length) (hlast : 1 ≤ last) :
    ∀ (fuel : ℕ) (r : Reader), r.Within last → last ≤ r.head + fuel → ∀ more,
      r.sgrLoop sequence last (fuel + more) = r.sgrLoop sequence last fuel
  | 0, r, _, hfuel, more => by
      have hstop : ¬ r.head < last := by omega
      cases more with
      | zero => rfl
      | succ more => exact if_neg hstop
  | fuel + 1, r, h, hfuel, more => by
      rw [Nat.add_right_comm]
      unfold Reader.sgrLoop
      split
      · rename_i hmore
        have hhead := nextInt_head hlen h.one_le hmore.le (-1)
        have hwithin : ((r.nextInt sequence last (-1)).2.nextChar sequence last).2.Within last :=
          (h.nextInt hlast (-1)).nextChar
        have hskip : ((r.nextInt sequence last (-1)).2.nextChar sequence last).2.head =
            (r.nextInt sequence last (-1)).2.head + 1 := by
          rw [Reader.nextChar, if_neg (not_lt.mpr hhead.2)]
        simp only
        split
        · rfl
        · refine sgrLoop_ends hlen hlast fuel _ hwithin ?_ more
          rw [hskip]
          have := hhead.1
          omega
      · rfl

/-! The head is the one `con_next_char` and `con_next_int` move. -/

theorem Reader.nextChar_eq {head last : ℕ} (hr : r.head = head) :
    (r.nextChar sequence last).1 = (conNextChar sequence head last).1 ∧
      (r.nextChar sequence last).2.head = (conNextChar sequence head last).2 := by
  unfold Reader.nextChar conNextChar
  rw [hr]
  by_cases hin : head > last
  · rw [if_pos (by omega), if_pos hin]
    exact ⟨rfl, hr⟩
  · rw [if_neg (by omega), if_neg hin]
    exact ⟨rfl, rfl⟩

theorem Reader.nextIntLoop_eq (fallback : ℤ) {last : ℕ} :
    ∀ (fuel : ℕ) (first : Bool) (n : ℤ) (r : Reader) (head : ℕ), 1 ≤ head → r.head = head →
      (nextIntLoop sequence last fallback fuel first n r).1 =
          (Console.nextIntLoop sequence last fallback fuel first n head).1 ∧
        (nextIntLoop sequence last fallback fuel first n r).2.head =
          (Console.nextIntLoop sequence last fallback fuel first n head).2
  | 0, _, _, _, _, _, hr => ⟨rfl, hr⟩
  | fuel + 1, first, n, r, head, hone, hr => by
      obtain ⟨hvalue, hhead⟩ : (r.nextChar sequence last).1 = (conNextChar sequence head last).1 ∧
          (r.nextChar sequence last).2.head = (conNextChar sequence head last).2 := nextChar_eq hr
      have hnext : 1 ≤ (conNextChar sequence head last).2 := by
        unfold conNextChar
        split <;> simp only <;> omega
      unfold Reader.nextIntLoop Console.nextIntLoop
      simp only [hvalue]
      split
      · exact nextIntLoop_eq fallback fuel _ _ _ _ hnext hhead
      · refine ⟨rfl, ?_⟩
        simp only
        omega

/-- The parameter read and the head after it are those of `con_next_int`. -/
theorem Reader.nextInt_eq (fallback : ℤ) {head last : ℕ} (hone : 1 ≤ head) (hr : r.head = head) :
    (r.nextInt sequence last fallback).1 = (conNextInt sequence head last fallback).1 ∧
      (r.nextInt sequence last fallback).2.head = (conNextInt sequence head last fallback).2 :=
  nextIntLoop_eq fallback _ _ _ _ _ hone hr

end Reader

/-! ## Drawing leaves the sequence alone -/

@[simp] theorem conCursor_sequence (c : Console) (nx ny : ℤ) :
    (c.conCursor nx ny).sequence = c.sequence := by
  rw [conCursor_eq]

@[simp] theorem conErase_sequence (c : Console) (x₁ y₁ x₂ y₂ : ℤ) :
    (c.conErase x₁ y₁ x₂ y₂).sequence = c.sequence := by
  obtain ⟨m, t, heq, -⟩ := conErase_eq c x₁ y₁ x₂ y₂
  rw [heq]

@[simp] theorem move_sequence (c : Console) (dst src : ℕ) (bytes : ℤ) :
    (c.move dst src bytes).sequence = c.sequence := rfl

@[simp] theorem conScroll_sequence (c : Console) (offset : ℤ) :
    (c.conScroll offset).sequence = c.sequence := by
  unfold conScroll
  simp only [apply_ite Console.sequence, conCursor_sequence, conErase_sequence, move_sequence,
    ite_self]

@[simp] theorem adjust_sequence (c : Console) : c.adjust.sequence = c.sequence := by
  unfold adjust
  simp only [apply_ite Console.sequence, conCursor_sequence, conScroll_sequence, ite_self]

theorem conCsiExecute_sequence (c : Console) (head last : ℕ) :
    (c.conCsiExecute head last).sequence = c.sequence := by
  have hsgr : (c.conSgrExecute head last).sequence = c.sequence := by
    rw [conSgrExecute_recolored c head last]
  unfold conCsiExecute eraseDisplay eraseLine
  simp only [apply_ite Console.sequence, conCursor_sequence, conErase_sequence, conScroll_sequence,
    hsgr, ite_self]

theorem conExecute_sequence (c : Console) : c.conExecute.sequence = c.sequence := by
  unfold conExecute
  rw [apply_ite Console.sequence, conCsiExecute_sequence, ite_self]

/-! ## Runs -/

/-- The collected sequence fits the buffer, and one that is still being collected leaves
room for another byte. -/
structure Buffered (c : Console) : Prop where
  length_le : c.sequence.length ≤ consoleMaxAnsiSequence
  room : c.outputLexer = .csi ∨ c.outputLexer = .untilSt →
    0 < c.sequence.length ∧ c.sequence.length < consoleMaxAnsiSequence

/-- A byte of a sequence is appended, and executes what it completes. -/
theorem conWrite_collecting (hlexer : c.outputLexer = .csi ∨ c.outputLexer = .untilSt) :
    c.conWrite code =
      match c.executed code with
      | some s => { s.conExecute with outputLexer := .initial }
      | none =>
          if (c.append code).sequence.length ≥ consoleMaxAnsiSequence then
            { c.append code with outputLexer := .initial }
          else c.append code := by
  unfold executed
  rcases hlexer with hcsi | hst
  · by_cases hfinal : ansiCsiFinal code
    · simp [conWrite, conLexerCsi, Completes, append, hcsi, hfinal]
    · simp [conWrite, conLexerCsi, Completes, append, hcsi, hfinal]
  · unfold conWrite conLexerUntilSt Completes append
    simp only [hst]
    split <;> rfl

theorem length_append (c : Console) (code : UInt8) :
    (c.append code).sequence.length = c.sequence.length + 1 :=
  List.length_append

theorem Buffered.initial {c' : Console} (hc : c.Buffered) (hsequence : c'.sequence = c.sequence)
    (hlexer : c'.outputLexer = .initial ∨ c'.outputLexer = .escape) : c'.Buffered where
  length_le := hsequence ▸ hc.length_le
  room h := by rcases hlexer with h' | h' <;> rw [h'] at h <;> simp at h

theorem buffered_single (bytes : List UInt8) (h : bytes.length = 1)
    (hsequence : c.sequence = bytes) : c.Buffered where
  length_le := by rw [hsequence, h]; decide
  room _ := by rw [hsequence, h]; decide

theorem conLexerInitial_buffered (hc : c.Buffered) (hlexer : c.outputLexer = .initial) :
    (c.conLexerInitial code).Buffered := by
  have hkept : ∀ c', Kept c c' → c'.sequence = c.sequence → c'.Buffered := fun c' h hsequence =>
    hc.initial hsequence (.inl (h.outputLexer.trans hlexer))
  have hprint : Kept c ((c.poke (c.conAt c.x c.y) code).poke (c.conAt c.x c.y + 1) c.conAttr) :=
    ⟨rfl, rfl, rfl, rfl, rfl⟩
  unfold conLexerInitial
  split
  · exact hkept _ (.ite (conCursor_kept _ _ _) (.refl c))
      (by rw [apply_ite Console.sequence, conCursor_sequence, ite_self])
  split
  · exact hkept _ (conCursor_kept _ _ _) (conCursor_sequence _ _ _)
  split
  · exact hkept _ (.ite ((conCursor_kept _ _ _).trans (conScroll_kept _ _)) (conCursor_kept _ _ _))
      (by simp only [apply_ite Console.sequence, conScroll_sequence, conCursor_sequence, ite_self])
  split
  · exact hc.initial rfl (.inr rfl)
  split
  · exact buffered_single _ rfl rfl
  split
  · exact buffered_single _ rfl rfl
  split
  · exact hkept _ ((conCursor_kept _ _ _).trans (adjust_kept _))
      ((adjust_sequence _).trans (conCursor_sequence _ _ _))
  · exact hkept _ (hprint.trans (adjust_kept _)) (adjust_sequence _)

theorem conLexerEscape_sequence (c : Console) (code : UInt8) :
    (c.conLexerEscape code).sequence = [code] := by
  unfold conLexerEscape
  simp only [apply_ite Console.sequence, conCursor_sequence, ite_self]

/-- Whatever the byte, the next one still fits. -/
theorem Buffered.conWrite (hc : c.Buffered) (code : UInt8) : (c.conWrite code).Buffered := by
  by_cases hlexer : c.outputLexer = .csi ∨ c.outputLexer = .untilSt
  · have hlength := length_append c code
    have hroom := (hc.room hlexer).2
    have happend : (c.append code).sequence.length ≤ consoleMaxAnsiSequence := by omega
    rw [conWrite_collecting hlexer]
    unfold executed
    split
    · rename_i s hs
      obtain ⟨-, hs⟩ := Option.ite_none_right_eq_some.mp hs
      refine ⟨?_, fun h => by simp at h⟩
      rw [← Option.some.inj hs]
      exact (conExecute_sequence _).symm ▸ happend
    · split
      · exact ⟨happend, fun h => by simp at h⟩
      · exact ⟨happend, fun _ => ⟨by omega, by omega⟩⟩
  · unfold Console.conWrite
    split
    · exact conLexerInitial_buffered hc (by assumption)
    · exact buffered_single _ rfl (conLexerEscape_sequence c code)
    · exact absurd (.inl (by assumption)) hlexer
    · exact absurd (.inr (by assumption)) hlexer

theorem Buffered.writeAll : ∀ (bytes : List UInt8) {c : Console}, c.Buffered →
    (c.writeAll bytes).Buffered
  | [], _, hc => hc
  | code :: bytes, _, hc => Buffered.writeAll bytes (hc.conWrite code)

theorem conInit_buffered (c : Console) (width height : ℤ) : (c.conInit width height).Buffered := by
  rw [conInit_eq]
  refine ⟨?_, ?_⟩
  · rw [conErase_sequence]
    exact Nat.zero_le _
  · rw [(conErase_kept _ _ _ _ _).outputLexer]
    exact fun h => by simp [fresh] at h

theorem Buffered.stores_lt (hc : c.Buffered) :
    ∀ i ∈ c.stores code, i < consoleMaxAnsiSequence := by
  have hclear : ∀ i ∈ List.range consoleMaxAnsiSequence ++ [0], i < consoleMaxAnsiSequence := by
    intro i hi
    rcases List.mem_append.mp hi with hclear | hfirst
    · exact List.mem_range.mp hclear
    · exact List.mem_singleton.mp hfirst ▸ (by decide)
  unfold stores
  split
  · split
    · exact hclear
    · exact nofun
  · exact hclear
  · exact List.forall_mem_singleton.mpr (hc.room (.inl (by assumption))).2
  · exact List.forall_mem_singleton.mpr (hc.room (.inr (by assumption))).2

theorem lexerReads_within (c : Console) (code : UInt8) :
    ∀ i ∈ c.lexerReads code, 0 ≤ i ∧ i ≤ ((c.append code).sequence.length : ℤ) - 1 := by
  unfold lexerReads
  split
  · refine List.forall_mem_singleton.mpr ?_
    omega
  · exact nofun

/-- The executor is entered with a sequence of two characters at least. -/
theorem Buffered.executeReads (hc : c.Buffered) {s : Console} (hs : c.executed code = some s) :
    ∀ i ∈ s.executeReads, 0 ≤ i ∧ i ≤ (s.sequence.length : ℤ) - 1 := by
  obtain ⟨hcompletes, hs⟩ := Option.ite_none_right_eq_some.mp hs
  have hlexer : c.outputLexer = .csi ∨ c.outputLexer = .untilSt := by
    unfold Completes at hcompletes
    split at hcompletes
    · exact .inl (by assumption)
    · exact .inr (by assumption)
    · exact hcompletes.elim
  have hlength : s.sequence.length = c.sequence.length + 1 := by
    rw [← Option.some.inj hs, length_append]
  have hpos := (hc.room hlexer).1
  have hlast : 1 ≤ (s.sequence.length : ℤ) - 1 := by omega
  have hstart : Reader.Within ((s.sequence.length : ℤ) - 1) { head := 1, reads := [0] } :=
    ⟨le_rfl, by simp only; omega, by simp only [List.forall_mem_singleton]; omega⟩
  unfold Console.executeReads
  simp only
  split
  · exact (hstart.csiExecute hlast).reads
  · exact hstart.reads

/-- Before every byte written after `con_init` the collected sequence fits its buffer, with
room to spare while it is collected, and everything that is stored or read in the buffer
because of the byte lies in it. -/
theorem sequence_in_bounds (c : Console) (maxWidth maxHeight : ℤ) (bytes : List UInt8)
    (code : UInt8) :
    let c' := (c.conInit maxWidth maxHeight).writeAll bytes
    c'.sequence.length ≤ consoleMaxAnsiSequence ∧
      (c'.outputLexer = .csi ∨ c'.outputLexer = .untilSt →
        c'.sequence.length < consoleMaxAnsiSequence) ∧
      (∀ i ∈ c'.stores code, i < consoleMaxAnsiSequence) ∧
      (∀ i ∈ c'.lexerReads code, 0 ≤ i ∧ i ≤ ((c'.append code).sequence.length : ℤ) - 1) ∧
      ∀ s, c'.executed code = some s →
        ∀ i ∈ s.executeReads, 0 ≤ i ∧ i ≤ (s.sequence.length : ℤ) - 1 := by
  intro c'
  have hc : c'.Buffered := (conInit_buffered c maxWidth maxHeight).writeAll bytes
  refine ⟨hc.length_le, fun h => (hc.room h).2, ?_, ?_, fun s hs => hc.executeReads hs⟩
  · exact hc.stores_lt
  · exact lexerReads_within c' code

end Neos.Console
