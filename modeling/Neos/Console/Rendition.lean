import Neos.Console.Sequences

/-!
# Lists of rendition codes

A control sequence that sets the colours applies its codes one after the other.
The loop reads a code, skips the byte behind it, and stops at the end of the
sequence, which a list of any length reaches after its last code.
-/

namespace Neos

namespace Console

variable {c : Console}

/-- A list of codes, separated. -/
def codesText : List ℕ → List UInt8
  | [] => []
  | [n] => decimalText n
  | n :: m :: codes => decimalText n ++ separator :: codesText (m :: codes)

/-- The codes applied one after the other. -/
def applyCodes (c : Console) (codes : List ℕ) : Console :=
  codes.foldl (fun c n => c.conSrgApply n) c

theorem applyCodes_recolored (codes : List ℕ) : ∀ c : Console, Recolored c (c.applyCodes codes) := by
  induction codes with
  | nil => exact fun c => rfl
  | cons n codes ih => exact fun c => (conSrgApply_recolored c n).trans (ih _)

/-- Applying a code does not depend on what was collected. -/
theorem conSrgApply_collecting (lexer : Lexer) (bytes : List UInt8) (c : Console) (code : ℤ) :
    (c.collecting lexer bytes).conSrgApply code = (c.conSrgApply code).collecting lexer bytes := by
  unfold conSrgApply
  repeat' apply collecting_ite
  all_goals exact rfl

theorem applyCodes_collecting (lexer : Lexer) (bytes : List UInt8) (codes : List ℕ) :
    ∀ c : Console, (c.collecting lexer bytes).applyCodes codes =
      (c.applyCodes codes).collecting lexer bytes := by
  induction codes with
  | nil => exact fun c => rfl
  | cons n codes ih =>
      intro c
      show ((c.collecting lexer bytes).conSrgApply n).applyCodes codes = _
      rw [conSrgApply_collecting]
      exact ih (c.conSrgApply n)

/-- A code and the byte behind it. -/
theorem sgrLoop_code {n : ℕ} (hn : n < 2 ^ 31) {before after : List UInt8} {next : UInt8}
    (hnext : isDigit next = false) (hsequence : c.sequence = before ++ decimalText n ++ next :: after)
    {last : ℕ} (hlast : before.length + (decimalText n).length ≤ last) (fuel : ℕ) (first : Bool) :
    sgrLoop last (fuel + 1) first before.length c =
      sgrLoop last fuel false (before.length + (decimalText n).length + 1) (c.conSrgApply n) := by
  have hpos : 0 < (decimalText n).length := by
    rw [decimalText, List.length_map]
    exact List.length_pos_of_ne_nil (Numerals.numeral_ne_nil 10 n)
  have hread : conNextInt c.sequence before.length last (-1) =
      (given (some n) (-1), before.length + (decimalText n).length) := by
    rw [hsequence]
    exact conNextInt_parameter (p := some n) (fun k hk => Option.mem_some.mp hk ▸ hn) hnext hlast (-1)
  have hskip : (conNextChar c.sequence (before.length + (decimalText n).length) last).2 =
      before.length + (decimalText n).length + 1 := by
    rw [conNextChar, if_neg (not_lt.mpr hlast)]
  have hcode : ¬ given (some n) (-1) = -1 := by
    show ¬ (n : ℤ) = -1
    omega
  rw [sgrLoop, if_pos (by omega)]
  simp only [hread, hskip, if_neg hcode]
  rfl

/-- Past the end of the sequence the loop stops. -/
theorem sgrLoop_end {last head : ℕ} (h : last ≤ head) (fuel : ℕ) (first : Bool) (c : Console) :
    sgrLoop last fuel first head c = (first, c) := by
  cases fuel with
  | zero => rfl
  | succ fuel => exact if_neg (not_lt.mpr h)

theorem sgrLoop_last {n : ℕ} (hn : n < 2 ^ 31) {final : UInt8} (hfinal : isDigit final = false)
    {before : List UInt8} (hsequence : c.sequence = before ++ decimalText n ++ [final])
    (fuel : ℕ) (first : Bool) :
    sgrLoop (before.length + (decimalText n).length) (fuel + 1) first before.length c =
      (false, c.conSrgApply n) := by
  rw [sgrLoop_code hn hfinal hsequence le_rfl, sgrLoop_end (Nat.le_succ _)]

/-- The loop applies the codes from its head to the end of the sequence. -/
theorem sgrLoop_codes {final : UInt8} (hfinal : isDigit final = false) (n : ℕ) (codes : List ℕ)
    (hcodes : ∀ k ∈ n :: codes, k < 2 ^ 31) :
    ∀ (before : List UInt8) (fuel : ℕ) (first : Bool) (c : Console), codes.length ≤ fuel →
      c.sequence = before ++ codesText (n :: codes) ++ [final] →
        sgrLoop (before.length + (codesText (n :: codes)).length) (fuel + 1) first before.length c =
          (false, c.applyCodes (n :: codes)) := by
  induction codes generalizing n with
  | nil =>
      intro before fuel first c _ hsequence
      exact sgrLoop_last (hcodes n List.mem_cons_self) hfinal hsequence fuel first
  | cons m codes ih =>
      intro before fuel first c hfuel hsequence
      have htext : codesText (n :: m :: codes) =
          decimalText n ++ separator :: codesText (m :: codes) := rfl
      have hhead : c.sequence =
          before ++ decimalText n ++ separator :: (codesText (m :: codes) ++ [final]) := by
        rw [hsequence, htext]
        simp
      have htail : (c.conSrgApply n).sequence =
          (before ++ decimalText n ++ [separator]) ++ codesText (m :: codes) ++ [final] := by
        rw [conSrgApply_recolored c n]
        show c.sequence = _
        rw [hhead]
        simp
      have hlength : before.length + (decimalText n).length + 1 =
          (before ++ decimalText n ++ [separator]).length := by
        rw [List.length_append, List.length_append, List.length_singleton]
      have hlast : before.length + (codesText (n :: m :: codes)).length =
          (before ++ decimalText n ++ [separator]).length + (codesText (m :: codes)).length := by
        rw [htext, ← hlength, List.length_append, List.length_cons]
        omega
      obtain ⟨fuel, rfl⟩ := Nat.exists_eq_add_of_le' (Nat.le_trans (Nat.le_add_left 1 _) hfuel)
      rw [List.length_cons, Nat.add_le_add_iff_right] at hfuel
      rw [sgrLoop_code (hcodes n List.mem_cons_self) (by decide) hhead (by omega), hlast, hlength,
        ih m (fun k hk => hcodes k (List.mem_cons_of_mem _ hk)) _ fuel false (c.conSrgApply n) hfuel
          htail]
      rfl

/-! ## The sequence as a whole -/

theorem codesText_cases (codes : List ℕ) :
    (∀ code ∈ codesText codes, ¬ ansiCsiFinal code) ∧ codes.length ≤ (codesText codes).length := by
  induction codes using codesText.induct with
  | case1 => exact ⟨fun _ h => absurd h List.not_mem_nil, le_rfl⟩
  | case2 n =>
      refine ⟨fun code h => not_final_of_isDigit (isDigit_of_mem h), ?_⟩
      rw [codesText, decimalText, List.length_map]
      exact List.length_pos_of_ne_nil (Numerals.numeral_ne_nil 10 n)
  | case3 n m codes ih =>
      obtain ⟨hfinal, hlength⟩ := ih
      rw [codesText]
      refine ⟨?_, ?_⟩
      · intro code h
        rcases List.mem_append.mp h with hdigit | htail
        · exact not_final_of_isDigit (isDigit_of_mem hdigit)
        · rcases List.mem_cons.mp htail with rfl | hcode
          · decide
          · exact hfinal code hcode
      · simp only [List.length_append, List.length_cons] at hlength ⊢
        omega

/-- The codes a list stands for: an empty one resets the colours. -/
def codesOrReset (codes : List ℕ) : List ℕ := if codes = [] then [0] else codes

theorem conSgrExecute_codes {codes : List ℕ} (hcodes : ∀ n ∈ codes, n < 2 ^ 31)
    (hsequence : c.sequence = collected (codesText codes) ansiCsiSgr) :
    c.conSgrExecute 1 ((codesText codes).length + 1) = c.applyCodes (codesOrReset codes) := by
  unfold conSgrExecute
  cases codes with
  | nil =>
      have hread : sgrLoop ((codesText []).length + 1) ((codesText []).length + 1) true 1 c =
          (true, c) := sgrLoop_end le_rfl _ _ _
      rw [hread]
      rfl
  | cons n codes =>
      have hlength := (codesText_cases (n :: codes)).2
      have hread : sgrLoop ((codesText (n :: codes)).length + 1)
          ((codesText (n :: codes)).length + 1) true 1 c = (false, c.applyCodes (n :: codes)) := by
        rw [Nat.add_comm (codesText (n :: codes)).length 1]
        have hloop := sgrLoop_codes (by decide) n codes hcodes [ansiCsi]
          (codesText (n :: codes)).length true c ((Nat.le_succ _).trans hlength) hsequence
        rwa [Nat.add_comm (codesText (n :: codes)).length 1] at hloop
      rw [hread]
      rfl

/-- A list of codes that fits in the buffer applies the codes in order, and does
nothing else. -/
theorem writeAll_codes (c : Console) (hlexer : c.outputLexer = .initial) (codes : List ℕ)
    (hcodes : ∀ n ∈ codes, n < 2 ^ 31)
    (hfits : (collected (codesText codes) ansiCsiSgr).length ≤ consoleMaxAnsiSequence) :
    let c' := c.writeAll (controlSequence (codesText codes) ansiCsiSgr)
    c' = { c.applyCodes (codesOrReset codes) with
        sequence := collected (codesText codes) ansiCsiSgr } ∧
      c'.memory = c.memory ∧ c'.x = c.x ∧ c'.y = c.y ∧ c'.outputLexer = .initial := by
  have hrecolored := applyCodes_recolored (codesOrReset codes) c
  have hbranch : (c.entered (codesText codes) ansiCsiSgr).conCsiExecute 1
      ((codesText codes).length + 1) =
        (c.entered (codesText codes) ansiCsiSgr).conSgrExecute 1 ((codesText codes).length + 1) := by
    have hcode : (c.entered (codesText codes) ansiCsiSgr).sequence.getD
        ((codesText codes).length + 1) 0 = ansiCsiSgr := collected_final _ _
    unfold conCsiExecute
    simp only [hcode]
    simp +decide
  have heffect : c.writeAll (controlSequence (codesText codes) ansiCsiSgr) =
      (c.applyCodes (codesOrReset codes)).collecting .initial
        (collected (codesText codes) ansiCsiSgr) := by
    have happlied := applyCodes_collecting .csi (collected (codesText codes) ansiCsiSgr)
      (codesOrReset codes) c
    rw [writeAll_controlSequence hlexer (codesText_cases codes).1 (by decide) hfits, hbranch,
      conSgrExecute_codes hcodes rfl]
    show { applyCodes (c.collecting .csi _) (codesOrReset codes) with outputLexer := .initial } = _
    rw [happlied]
    rfl
  have hsame : (c.applyCodes (codesOrReset codes)).outputLexer = .initial := by
    rw [hrecolored]
    exact hlexer
  intro c'
  have hcollected : c' = (c.applyCodes (codesOrReset codes)).collecting .initial
      (collected (codesText codes) ansiCsiSgr) := heffect
  rw [hcollected]
  refine ⟨?_, ?_, ?_, ?_, rfl⟩
  · rw [collecting, ← hsame]
  · rw [collecting, hrecolored]
  · rw [collecting, hrecolored]
  · rw [collecting, hrecolored]

/-- Bold red letters on the text screen. -/
theorem writeAll_codes_boldRed :
    let c' := (blank.conInit 80 25).writeAll (controlSequence (codesText [1, 31]) ansiCsiSgr)
    c' = { (blank.conInit 80 25).applyCodes (codesOrReset [1, 31]) with
        sequence := collected (codesText [1, 31]) ansiCsiSgr } ∧
      c'.memory = (blank.conInit 80 25).memory ∧ c'.x = (blank.conInit 80 25).x ∧
      c'.y = (blank.conInit 80 25).y ∧ c'.outputLexer = .initial :=
  writeAll_codes _ (by decide +kernel) [1, 31] (by decide)
    (by norm_num [codesText, decimalText, Numerals.numeral, collected, consoleMaxAnsiSequence])

end Console

end Neos
