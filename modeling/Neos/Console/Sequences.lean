import Mathlib.Tactic.IntervalCases
import Neos.Console.Runs
import Neos.Library.Numerals

/-!
# Control sequences as a whole

The lexer collects the bytes of a control sequence and executes it at its final
byte.  Its parameters are decimal numerals, each of which `con_next_int` reads
as a whole, leaving the head at the byte that follows.
-/

namespace Neos

open Numerals

namespace Console

variable {c : Console} {body before after ds : List UInt8} {final next : UInt8}

/-! ## Collecting a sequence -/

/-- The console with other bytes collected. -/
def collecting (c : Console) (lexer : Lexer) (bytes : List UInt8) : Console :=
  { c with outputLexer := lexer, sequence := bytes }

theorem collecting_ite {lexer : Lexer} {bytes : List UInt8} {p : Prop} [Decidable p]
    {c₁ c₂ c₁' c₂' : Console} (h₁ : c₁' = c₁.collecting lexer bytes)
    (h₂ : c₂' = c₂.collecting lexer bytes) :
    (if p then c₁' else c₂') = (if p then c₁ else c₂).collecting lexer bytes := by
  split
  · exact h₁
  · exact h₂

/-- What the lexer has collected at the final byte of a control sequence. -/
def collected (body : List UInt8) (final : UInt8) : List UInt8 := ansiCsi :: (body ++ [final])

/-- The bytes of a control sequence. -/
def controlSequence (body : List UInt8) (final : UInt8) : List UInt8 :=
  ansiEscape :: collected body final

theorem writeAll_cons (c : Console) (code : UInt8) (bytes : List UInt8) :
    c.writeAll (code :: bytes) = (c.conWrite code).writeAll bytes := rfl

theorem conWrite_initial (hlexer : c.outputLexer = .initial) (code : UInt8) :
    c.conWrite code = c.conLexerInitial code := by
  unfold conWrite
  rw [hlexer]

theorem conWrite_csi (hlexer : c.outputLexer = .csi) (code : UInt8) :
    c.conWrite code = c.conLexerCsi code := by
  unfold conWrite
  rw [hlexer]

/-- A byte that neither ends the sequence nor fills the buffer is kept. -/
theorem conWrite_collect (hlexer : c.outputLexer = .csi) {code : UInt8}
    (hcode : ¬ ansiCsiFinal code) (hroom : c.sequence.length + 1 < consoleMaxAnsiSequence) :
    c.conWrite code = { c with sequence := c.sequence ++ [code] } := by
  have hshort : ¬ (c.sequence ++ [code]).length ≥ consoleMaxAnsiSequence := by
    rw [List.length_append, List.length_singleton]
    omega
  rw [conWrite_csi hlexer]
  unfold conLexerCsi
  rw [if_neg hcode, if_neg hshort]

theorem writeAll_collect (hbody : ∀ code ∈ body, ¬ ansiCsiFinal code) :
    ∀ c : Console, c.outputLexer = .csi →
      c.sequence.length + body.length < consoleMaxAnsiSequence →
        c.writeAll body = { c with sequence := c.sequence ++ body } := by
  induction body with
  | nil =>
      intro c _ _
      rw [List.append_nil]
      rfl
  | cons code body ih =>
      intro c hlexer hroom
      rw [List.length_cons] at hroom
      have hrest := ih (fun code hcode => hbody code (List.mem_cons_of_mem _ hcode))
        { c with sequence := c.sequence ++ [code] } hlexer (by
          show (c.sequence ++ [code]).length + body.length < _
          rw [List.length_append, List.length_singleton]
          omega)
      rw [writeAll_cons, conWrite_collect hlexer (hbody code List.mem_cons_self) (by omega), hrest]
      simp only [List.append_assoc, List.singleton_append]

theorem conExecute_collected (hs : c.sequence = collected body final) :
    c.conExecute = c.conCsiExecute 1 (body.length + 1) := by
  have hlast : (collected body final).length - 1 = body.length + 1 := by
    rw [collected, List.length_cons, List.length_append]
    rfl
  have hintro : (collected body final).getD 0 0 = ansiCsi := rfl
  unfold conExecute
  rw [hs, if_pos hintro, hlast]

/-- The console when the final byte of a control sequence has been collected. -/
def entered (c : Console) (body : List UInt8) (final : UInt8) : Console :=
  c.collecting .csi (collected body final)

/-- A control sequence that fits in the buffer is executed as a whole. -/
theorem writeAll_controlSequence (hlexer : c.outputLexer = .initial)
    (hbody : ∀ code ∈ body, ¬ ansiCsiFinal code) (hfinal : ansiCsiFinal final)
    (hfits : (collected body final).length ≤ consoleMaxAnsiSequence) :
    c.writeAll (controlSequence body final) =
      { (c.entered body final).conCsiExecute 1 (body.length + 1) with outputLexer := .initial } := by
  rw [collected, List.length_cons, List.length_append, List.length_singleton] at hfits
  have hescape : c.conWrite ansiEscape = { c with outputLexer := .escape } := by
    rw [conWrite_initial hlexer]
    unfold conLexerInitial
    rw [if_neg (by decide), if_neg (by decide), if_neg (by decide), if_pos rfl]
  have hintroducer : ({ c with outputLexer := .escape } : Console).conWrite ansiCsi =
      { c with outputLexer := .csi, sequence := [ansiCsi] } := rfl
  have hexecute : ∀ s : Console, s.outputLexer = .csi → s.sequence = ansiCsi :: body →
      s.conWrite final =
        { conCsiExecute { s with sequence := collected body final } 1 (body.length + 1) with
          outputLexer := .initial } := by
    intro s hs hsequence
    rw [conWrite_csi hs]
    unfold conLexerCsi
    rw [if_pos hfinal, hsequence, conExecute_collected rfl]
    rfl
  rw [controlSequence, collected, writeAll_cons, hescape, writeAll_cons, hintroducer,
    writeAll_append, writeAll_collect hbody _ rfl (by
      show 1 + body.length < _
      omega)]
  exact hexecute _ rfl rfl

/-! ## Parameters -/

/-- The decimal numeral of a number. -/
def decimalText (n : ℕ) : List UInt8 := (numeral 10 n).map fun d => UInt8.ofNat (48 + d)

/-- A parameter, which may be omitted. -/
def parameterText (p : Option ℕ) : List UInt8 := p.elim [] decimalText

/-- The separator of two parameters. -/
def separator : UInt8 := ';'.toUInt8

/-- What a parameter stands for. -/
def given (p : Option ℕ) (fallback : ℤ) : ℤ := p.elim fallback Nat.cast

/-- Where a byte that is not a digit follows, `con_next_int` reads all digits
before it. -/
theorem nextIntLoop_digits {last : ℕ} {fallback : ℤ} (hnext : isDigit next = false) :
    ∀ (ds before : List UInt8) (fuel : ℕ) (first : Bool) (n : ℤ), (∀ d ∈ ds, isDigit d = true) →
      ds.length < fuel → before.length + ds.length ≤ last →
        nextIntLoop (before ++ ds ++ next :: after) last fallback fuel first (wrapInt n)
            before.length =
          (if first ∧ ds = [] then fallback
            else wrapInt (ds.foldl (fun n d => n * 10 + (d.toNat - 48)) n),
            before.length + ds.length)
  | [], before, fuel + 1, first, n, _, _, hlast => by
      have hin : ¬ before.length > last := not_lt.mpr hlast
      have hread : conNextChar (before ++ [] ++ next :: after) before.length last =
          (next, before.length + 1) := by
        rw [conNextChar, if_neg hin]
        simp
      unfold nextIntLoop
      simp only [hread, hnext]
      cases first <;> rfl
  | d :: ds, before, fuel + 1, first, n, hds, hfuel, hlast => by
      rw [List.length_cons] at hfuel hlast
      have hin : ¬ before.length > last := by omega
      have hread : conNextChar (before ++ d :: ds ++ next :: after) before.length last =
          (d, before.length + 1) := by
        rw [conNextChar, if_neg hin]
        simp
      have hmoved : before ++ d :: ds ++ next :: after = before ++ [d] ++ ds ++ next :: after := by
        simp
      have hlength : (before ++ [d]).length = before.length + 1 := by simp
      have hrest : nextIntLoop (before ++ [d] ++ ds ++ next :: after) last fallback fuel false
          (wrapInt (n * 10 + (d.toNat - 48))) (before ++ [d]).length = _ :=
        nextIntLoop_digits hnext ds (before ++ [d]) fuel false _
          (fun d' hd' => hds d' (List.mem_cons_of_mem _ hd')) (by omega) (by omega)
      unfold nextIntLoop
      simp only [hread, hds d List.mem_cons_self, if_true, wrapInt_digit]
      rw [hmoved, ← hlength, hrest, hlength]
      simp [Nat.add_assoc, Nat.add_comm 1]

theorem mem_decimalText {n : ℕ} {code : UInt8} (h : code ∈ decimalText n) :
    ∃ d < 10, code = UInt8.ofNat (48 + d) := by
  obtain ⟨d, hd, rfl⟩ := List.mem_map.mp h
  exact ⟨d, lt_of_mem_numeral (by decide) hd, rfl⟩

theorem isDigit_of_mem {n : ℕ} {code : UInt8} (h : code ∈ decimalText n) : isDigit code = true := by
  obtain ⟨d, hd, rfl⟩ := mem_decimalText h
  interval_cases d <;> rfl

/-- The numeral of a number denotes it. -/
theorem decimal_decimalText (n : ℕ) : decimal (decimalText n) = n := by
  have hread : ∀ (ds : List ℕ) (m : ℕ), (∀ d ∈ ds, d < 10) →
      (ds.map fun d => UInt8.ofNat (48 + d)).foldl (fun n d => n * 10 + ((d.toNat : ℤ) - 48)) m =
        (ds.foldl (fun n d => n * 10 + d) m : ℕ) := by
    intro ds
    induction ds with
    | nil => exact fun m _ => rfl
    | cons d ds ih =>
        intro m hds
        have hd := hds d List.mem_cons_self
        have hbyte : ((UInt8.ofNat (48 + d)).toNat : ℤ) - 48 = d := by
          rw [UInt8.toNat_ofNat']
          omega
        rw [List.map_cons, List.foldl_cons, List.foldl_cons, hbyte,
          ← ih (m * 10 + d) (fun d' hd' => hds d' (List.mem_cons_of_mem _ hd'))]
        push_cast
        rfl
  rw [decimal, decimalText]
  exact (hread _ 0 (fun d hd => lt_of_mem_numeral (by decide) hd)).trans
    (congrArg Nat.cast (value_numeral 10 n))

theorem not_final_of_isDigit {code : UInt8} (h : isDigit code = true) : ¬ ansiCsiFinal code := by
  have hdigit : code ≤ '9'.toUInt8 := (of_decide_eq_true h).2
  rintro ⟨hfinal, -⟩
  exact absurd (UInt8.le_trans hfinal hdigit) (by decide)

theorem isDigit_of_mem_parameterText {p : Option ℕ} {code : UInt8} (h : code ∈ parameterText p) :
    isDigit code = true := by
  cases p with
  | none => exact absurd h List.not_mem_nil
  | some n => exact isDigit_of_mem h

/-- `con_next_int` reads a parameter and stops behind it. -/
theorem conNextInt_parameter {p : Option ℕ} (hp : ∀ n ∈ p, n < 2 ^ 31)
    (hnext : isDigit next = false) {last : ℕ}
    (hlast : before.length + (parameterText p).length ≤ last) (fallback : ℤ) :
    conNextInt (before ++ parameterText p ++ next :: after) before.length last fallback =
      (given p fallback, before.length + (parameterText p).length) := by
  have hzero : wrapInt 0 = 0 := by decide
  have hread : nextIntLoop (before ++ parameterText p ++ next :: after) last fallback
      ((before ++ parameterText p ++ next :: after).length + 1) true (wrapInt 0) before.length = _ :=
    nextIntLoop_digits hnext (parameterText p) before _ true 0
      (fun d hd => isDigit_of_mem_parameterText hd) (by simp; omega) hlast
  rw [hzero] at hread
  rw [conNextInt, hread]
  cases p with
  | none => rfl
  | some n =>
      have hlt := hp n rfl
      have hsome : decimalText n ≠ [] := by
        rw [decimalText, Ne, List.map_eq_nil_iff]
        exact numeral_ne_nil 10 n
      have hvalue : wrapInt (decimal (decimalText n)) = n := by
        rw [decimal_decimalText, wrapInt_of_fits (by omega) (by omega)]
      show (if true = true ∧ decimalText n = [] then fallback
        else wrapInt (decimal (decimalText n)), _) = _
      rw [if_neg (fun h => hsome h.2), hvalue]
      rfl

/-- Behind the end of the sequence there is nothing to read. -/
theorem conNextInt_past (sequence : List UInt8) {head last : ℕ} (h : last < head) (fallback : ℤ) :
    conNextInt sequence head last fallback = (fallback, head - 1) := by
  have hread : conNextChar sequence head last = (0, head) := if_pos h
  unfold conNextInt nextIntLoop
  rw [hread]
  rfl

theorem length_parameterText_le {p : Option ℕ} (hp : ∀ n ∈ p, n < 2 ^ 15) :
    (parameterText p).length ≤ 5 := by
  cases p with
  | none => exact Nat.zero_le 5
  | some n =>
      have hlt := hp n rfl
      show (decimalText n).length ≤ 5
      rw [decimalText, List.length_map]
      exact Numerals.length_numeral_le (by decide) (by decide) (by omega)

theorem not_final_of_mem_parameterText {p : Option ℕ} {code : UInt8}
    (h : code ∈ parameterText p) : ¬ ansiCsiFinal code :=
  not_final_of_isDigit (isDigit_of_mem_parameterText h)

theorem isDigit_of_final {final : UInt8} (hfinal : ansiCsiFinal final) : isDigit final = false := by
  rw [Bool.eq_false_iff]
  exact fun h => not_final_of_isDigit h hfinal

theorem collected_final (body : List UInt8) (final : UInt8) :
    (collected body final).getD (body.length + 1) 0 = final := by
  rw [collected, List.getD_cons_succ, List.getD_append_right _ _ _ _ le_rfl, Nat.sub_self]
  rfl

/-- The parameter of a control that has one. -/
theorem collected_parameter {p : Option ℕ} (hp : ∀ n ∈ p, n < 2 ^ 31) {final : UInt8}
    (hfinal : ansiCsiFinal final) (fallback : ℤ) :
    (conNextInt (collected (parameterText p) final) 1 ((parameterText p).length + 1) fallback).1 =
      given p fallback := by
  have hread : conNextInt ([ansiCsi] ++ parameterText p ++ final :: []) [ansiCsi].length
      ((parameterText p).length + 1) fallback = _ :=
    conNextInt_parameter hp (isDigit_of_final hfinal) (by
      show 1 + (parameterText p).length ≤ _
      omega) fallback
  exact congrArg Prod.fst hread

/-- A control with one parameter is executed as a whole. -/
theorem writeAll_parameter (hlexer : c.outputLexer = .initial) {p : Option ℕ}
    (hp : ∀ n ∈ p, n < 2 ^ 15) (hfinal : ansiCsiFinal final) :
    c.writeAll (controlSequence (parameterText p) final) =
      { (c.entered (parameterText p) final).conCsiExecute 1 ((parameterText p).length + 1) with
        outputLexer := .initial } := by
  have hlength := length_parameterText_le hp
  apply writeAll_controlSequence hlexer (fun code hcode => not_final_of_mem_parameterText hcode)
    hfinal
  rw [collected, List.length_cons, List.length_append]
  show (parameterText p).length + 1 + 1 ≤ 64
  omega

end Console

end Neos
