import Neos.Console.Sequences

/-!
# One-byte introducers

A one-byte introducer and the escape sequence it abbreviates start the same lexer,
but the sequence of a device control or operating system command is seeded with
another byte.  Nothing that follows depends on the difference: such a sequence ends
with a string terminator, for which no control is executed either way.
-/

namespace Neos

namespace Console

variable {c c' : Console}

/-! ## What does not look at the collected bytes -/

theorem conCursor_collecting (c : Console) (lexer : Lexer) (bytes : List UInt8) (nx ny : ℤ) :
    (c.collecting lexer bytes).conCursor nx ny = (c.conCursor nx ny).collecting lexer bytes := by
  rw [conCursor_eq, conCursor_eq]
  rfl

theorem eraseLoop_collecting (lexer : Lexer) (bytes : List UInt8) (stop : ℕ) :
    ∀ (fuel glyph : ℕ) (c : Console), eraseLoop stop fuel glyph (c.collecting lexer bytes) =
      (eraseLoop stop fuel glyph c).collecting lexer bytes
  | 0, _, _ => rfl
  | fuel + 1, glyph, c => by
      unfold eraseLoop
      apply collecting_ite
      · exact eraseLoop_collecting lexer bytes stop fuel _
          ((c.poke glyph 0).poke (glyph + 1) consoleDefaultAttribute)
      · rfl

theorem conErase_collecting (c : Console) (lexer : Lexer) (bytes : List UInt8) (x₁ y₁ x₂ y₂ : ℤ) :
    (c.collecting lexer bytes).conErase x₁ y₁ x₂ y₂ =
      (c.conErase x₁ y₁ x₂ y₂).collecting lexer bytes :=
  eraseLoop_collecting lexer bytes _ _ _ c

/-- Rows are moved, rows are erased, and the cursor follows. -/
theorem scrolled_collecting (c : Console) (lexer : Lexer) (bytes : List UInt8) (dst src : ℕ)
    (count x₁ y₁ x₂ y₂ nx ny : ℤ) :
    (((c.collecting lexer bytes).move dst src count).conErase x₁ y₁ x₂ y₂).conCursor nx ny =
      (((c.move dst src count).conErase x₁ y₁ x₂ y₂).conCursor nx ny).collecting lexer bytes := by
  have hmove : (c.collecting lexer bytes).move dst src count =
      (c.move dst src count).collecting lexer bytes := rfl
  rw [hmove, conErase_collecting, conCursor_collecting]

theorem conScroll_collecting (c : Console) (lexer : Lexer) (bytes : List UInt8) (offset : ℤ) :
    (c.collecting lexer bytes).conScroll offset = (c.conScroll offset).collecting lexer bytes := by
  have hrow : ∀ x₁ y₁ x₂ y₂ dst src count,
      (((c.collecting lexer bytes).move dst src count).conErase x₁ y₁ x₂ y₂).x = c.x ∧
      (((c.collecting lexer bytes).move dst src count).conErase x₁ y₁ x₂ y₂).y = c.y := by
    intro x₁ y₁ x₂ y₂ dst src count
    obtain ⟨m, t, heq, -⟩ :=
      conErase_eq ((c.collecting lexer bytes).move dst src count) x₁ y₁ x₂ y₂
    rw [heq]
    exact ⟨rfl, rfl⟩
  have hrow' : ∀ x₁ y₁ x₂ y₂ dst src count,
      ((c.move dst src count).conErase x₁ y₁ x₂ y₂).x = c.x ∧
      ((c.move dst src count).conErase x₁ y₁ x₂ y₂).y = c.y := by
    intro x₁ y₁ x₂ y₂ dst src count
    obtain ⟨m, t, heq, -⟩ := conErase_eq (c.move dst src count) x₁ y₁ x₂ y₂
    rw [heq]
    exact ⟨rfl, rfl⟩
  unfold conScroll
  simp only [(hrow _ _ _ _ _ _ _).1, (hrow _ _ _ _ _ _ _).2, (hrow' _ _ _ _ _ _ _).1,
    (hrow' _ _ _ _ _ _ _).2]
  apply collecting_ite
  · exact scrolled_collecting c lexer bytes _ _ _ _ _ _ _ _ _
  apply collecting_ite
  · exact scrolled_collecting c lexer bytes _ _ _ _ _ _ _ _ _
  · rfl

theorem adjust_collecting (c : Console) (lexer : Lexer) (bytes : List UInt8) :
    (c.collecting lexer bytes).adjust = c.adjust.collecting lexer bytes := by
  have hnext : (if wrapInt ((c.collecting lexer bytes).x + 1) ≥ (c.collecting lexer bytes).width
        then (c.collecting lexer bytes).conCursor 0 (wrapInt ((c.collecting lexer bytes).y + 1))
        else (c.collecting lexer bytes).conCursor (wrapInt ((c.collecting lexer bytes).x + 1))
          (c.collecting lexer bytes).y) =
      (if wrapInt (c.x + 1) ≥ c.width then c.conCursor 0 (wrapInt (c.y + 1))
        else c.conCursor (wrapInt (c.x + 1)) c.y).collecting lexer bytes :=
    collecting_ite (conCursor_collecting _ _ _ _ _) (conCursor_collecting _ _ _ _ _)
  unfold adjust
  simp only []
  rw [hnext]
  apply collecting_ite
  · exact conScroll_collecting _ _ _ _
  · rfl

/-! ## Consoles that differ in the introducer -/

/-- Two consoles that differ in the collected bytes at most.  A control sequence is
the same on both sides; a string may begin with different introducers, of which
none is the escape character. -/
structure Matching (c c' : Console) : Prop where
  agree : c' = c.collecting c.outputLexer c'.sequence
  csi : c.outputLexer = .csi → c'.sequence = c.sequence
  untilSt : c.outputLexer = .untilSt → ∃ short long body,
    c.sequence = short :: body ∧ c'.sequence = long :: body ∧
      short ≠ ansiEscape ∧ long ≠ ansiEscape

theorem Matching.of_initial {bytes : List UInt8} (hlexer : c.outputLexer = .initial)
    (h : c' = c.collecting .initial bytes) : Matching c c' := by
  refine ⟨?_, fun hcsi => absurd (hlexer.symm.trans hcsi) nofun,
    fun hst => absurd (hlexer.symm.trans hst) nofun⟩
  rw [hlexer, h]
  rfl

theorem Matching.of_escape {bytes : List UInt8} (hlexer : c.outputLexer = .escape)
    (h : c' = c.collecting .escape bytes) : Matching c c' := by
  refine ⟨?_, fun hcsi => absurd (hlexer.symm.trans hcsi) nofun,
    fun hst => absurd (hlexer.symm.trans hst) nofun⟩
  rw [hlexer, h]
  rfl

/-- A string of either kind that has just begun. -/
theorem Matching.begin (c : Console) {short long : UInt8} (hshort : short ≠ ansiEscape)
    (hlong : long ≠ ansiEscape) :
    Matching (c.collecting .untilSt [short]) (c.collecting .untilSt [long]) :=
  ⟨rfl, nofun, fun _ => ⟨short, long, [], rfl, rfl, hshort, hlong⟩⟩

theorem Matching.control (c : Console) (bytes : List UInt8) :
    Matching (c.collecting .csi bytes) (c.collecting .csi bytes) :=
  ⟨rfl, fun _ => rfl, nofun⟩

/-- A string terminator is not the final byte of any control. -/
theorem conExecute_st {bytes : List UInt8} (hlast : bytes.getD (bytes.length - 1) 0 = ansiSt)
    (lexer : Lexer) : (c.collecting lexer bytes).conExecute = c.collecting lexer bytes := by
  have hcode : (c.collecting lexer bytes).sequence.getD
      ((c.collecting lexer bytes).sequence.length - 1) 0 = ansiSt := hlast
  unfold conExecute
  split
  · unfold conCsiExecute
    simp only [hcode]
    simp +decide
  · rfl

/-- Whatever a byte does while printing, it does on both sides. -/
theorem conLexerInitial_matching (hlexer : c.outputLexer = .initial) (bytes : List UInt8)
    (code : UInt8) :
    Matching (c.conLexerInitial code) ((c.collecting .initial bytes).conLexerInitial code) := by
  have hkept : ∀ r : Console, Kept c r → Matching r (r.collecting .initial bytes) :=
    fun r hr => .of_initial (hr.outputLexer.trans hlexer) rfl
  unfold conLexerInitial
  by_cases h₁ : code = ansiBackspace
  · rw [if_pos h₁, if_pos h₁]
    have hboth : (if (c.collecting .initial bytes).x > 0 then
          (c.collecting .initial bytes).conCursor ((c.collecting .initial bytes).x - 1)
            (c.collecting .initial bytes).y
          else c.collecting .initial bytes) =
        (if c.x > 0 then c.conCursor (c.x - 1) c.y else c).collecting .initial bytes :=
      collecting_ite (conCursor_collecting _ _ _ _ _) rfl
    rw [hboth]
    exact hkept _ (.ite (conCursor_kept _ _ _) (.refl c))
  rw [if_neg h₁, if_neg h₁]
  by_cases h₂ : code = ansiCarriageReturn
  · rw [if_pos h₂, if_pos h₂, conCursor_collecting]
    exact hkept _ (conCursor_kept _ _ _)
  rw [if_neg h₂, if_neg h₂]
  by_cases h₃ : code = ansiLineFeed
  · rw [if_pos h₃, if_pos h₃]
    simp only [conCursor_collecting]
    have hboth : ∀ r : Console, (if (r.collecting .initial bytes).y ≥
          (r.collecting .initial bytes).height then (r.collecting .initial bytes).conScroll 1
          else r.collecting .initial bytes) =
        (if r.y ≥ r.height then r.conScroll 1 else r).collecting .initial bytes :=
      fun r => collecting_ite (conScroll_collecting _ _ _ _) rfl
    refine Eq.subst (hboth _).symm (hkept _ ?_)
    exact .ite ((conCursor_kept _ _ _).trans (conScroll_kept _ _)) (conCursor_kept _ _ _)
  rw [if_neg h₃, if_neg h₃]
  by_cases h₄ : code = ansiEscape
  · rw [if_pos h₄, if_pos h₄]
    exact .of_escape rfl rfl
  have hsame : (c.collecting .initial bytes).shortcuts = c.shortcuts := rfl
  rw [if_neg h₄, if_neg h₄, hsame]
  by_cases h₅ : c.shortcuts ∧ code = ansiEscCsi
  · rw [if_pos h₅, if_pos h₅]
    exact .control c [ansiCsi]
  rw [if_neg h₅, if_neg h₅]
  by_cases h₆ : c.shortcuts ∧ (code = ansiEscDcs ∨ code = ansiEscOsc)
  · rw [if_pos h₆, if_pos h₆]
    exact .begin c (by decide) (by decide)
  rw [if_neg h₆, if_neg h₆]
  by_cases h₇ : code = ansiTab
  · rw [if_pos h₇, if_pos h₇]
    have hboth : ((c.collecting .initial bytes).conCursor (c.collecting .initial bytes).conNextTabStop
          (c.collecting .initial bytes).y).adjust =
        (c.conCursor c.conNextTabStop c.y).adjust.collecting .initial bytes := by
      rw [conCursor_collecting, adjust_collecting]
      rfl
    rw [hboth]
    exact hkept _ ((conCursor_kept _ _ _).trans (adjust_kept _))
  · rw [if_neg h₇, if_neg h₇]
    have hprint : Kept c ((c.poke (c.conAt c.x c.y) code).poke (c.conAt c.x c.y + 1) c.conAttr) :=
      ⟨rfl, rfl, rfl, rfl, rfl⟩
    exact Eq.subst (adjust_collecting _ _ _).symm (hkept _ (hprint.trans (adjust_kept _)))

/-- The byte behind the escape character replaces what was collected. -/
theorem conLexerEscape_matching (hlexer : c.outputLexer = .escape) (bytes : List UInt8)
    (code : UInt8) :
    Matching (c.conLexerEscape code) ((c.collecting .escape bytes).conLexerEscape code) := by
  have hsame : (c.collecting .escape bytes).conLexerEscape code = c.conLexerEscape code := by
    cases c
    cases hlexer
    rfl
  rw [hsame]
  unfold conLexerEscape
  simp only []
  split
  · exact .control c [code]
  split
  · rename_i hcode
    have hother : code ≠ ansiEscape := by
      rintro rfl
      exact absurd hcode (by decide)
    exact .begin c hother hother
  split
  · exact .of_initial rfl rfl
  split
  · exact .of_initial rfl rfl
  split
  · exact .of_initial rfl rfl
  split
  · exact .of_initial rfl rfl
  · exact .of_initial rfl rfl

/-- The lexer after a byte of a string. -/
def afterString (body : List UInt8) (code : UInt8) : Lexer :=
  if code = ansiSt ∧ body.getLast? = some ansiEscape then .initial
  else if body.length + 2 ≥ consoleMaxAnsiSequence then .initial
  else .untilSt

/-- A string ends at the same byte whatever its introducer, and its end executes
nothing. -/
theorem conLexerUntilSt_eq {introducer : UInt8} {body : List UInt8}
    (hother : introducer ≠ ansiEscape) (code : UInt8) :
    (c.collecting .untilSt (introducer :: body)).conLexerUntilSt code =
      c.collecting (afterString body code) (introducer :: body ++ [code]) := by
  have hlength : (introducer :: body ++ [code]).length = body.length + 2 := by
    simp
  have hbefore : (introducer :: body ++ [code]).getD (body.length + 2 - 2) 0 = ansiEscape ↔
      body.getLast? = some ansiEscape := by
    induction body using List.reverseRecOn with
    | nil => exact iff_of_false hother nofun
    | append_singleton body b _ =>
        have hindex : (introducer :: (body ++ [b]) ++ [code]).getD ((body ++ [b]).length + 2 - 2) 0 =
            b := by
          simp
        rw [hindex, List.getLast?_concat, Option.some_inj]
  have hexecute : code = ansiSt →
      (c.collecting .untilSt (introducer :: body ++ [code])).conExecute =
        c.collecting .untilSt (introducer :: body ++ [code]) := by
    intro hst
    apply conExecute_st
    rw [← hst]
    exact getD_append_last (introducer :: body) code
  have hstep : (c.collecting .untilSt (introducer :: body)).conLexerUntilSt code =
      if code = ansiSt ∧ (introducer :: body ++ [code]).length > 1 ∧
          (introducer :: body ++ [code]).getD ((introducer :: body ++ [code]).length - 2) 0 =
            ansiEscape then
        { (c.collecting .untilSt (introducer :: body ++ [code])).conExecute with
          outputLexer := .initial }
      else if (introducer :: body ++ [code]).length ≥ consoleMaxAnsiSequence then
        c.collecting .initial (introducer :: body ++ [code])
      else c.collecting .untilSt (introducer :: body ++ [code]) := rfl
  have hends : (code = ansiSt ∧ (introducer :: body ++ [code]).length > 1 ∧
      (introducer :: body ++ [code]).getD ((introducer :: body ++ [code]).length - 2) 0 =
        ansiEscape) ↔ code = ansiSt ∧ body.getLast? = some ansiEscape := by
    rw [hlength, hbefore, and_iff_right (Nat.lt_add_left _ (Nat.lt_succ_self 1))]
  rw [hstep, afterString, hlength]
  rw [hlength] at hends
  by_cases hst : code = ansiSt ∧ body.getLast? = some ansiEscape
  · rw [if_pos (hends.mpr hst), if_pos hst, hexecute hst.1]
    rfl
  rw [if_neg (fun h => hst (hends.mp h)), if_neg hst]
  split
  · rfl
  · rfl

theorem collecting_self {lexer : Lexer} {bytes : List UInt8} (hlexer : c.outputLexer = lexer)
    (hsequence : c.sequence = bytes) : c.collecting lexer bytes = c := by
  rw [← hlexer, ← hsequence]
  rfl

theorem conWrite_escape (hlexer : c.outputLexer = .escape) (code : UInt8) :
    c.conWrite code = c.conLexerEscape code := by
  unfold conWrite
  rw [hlexer]

theorem conWrite_untilSt (hlexer : c.outputLexer = .untilSt) (code : UInt8) :
    c.conWrite code = c.conLexerUntilSt code := by
  unfold conWrite
  rw [hlexer]

theorem Matching.refl_of_control (hlexer : c.outputLexer = .initial ∨ c.outputLexer = .csi) :
    Matching c c := by
  rcases hlexer with h | h
  · exact .of_initial h (collecting_self h rfl).symm
  · rw [← collecting_self h rfl]
    exact .control c c.sequence

theorem conLexerCsi_cases (hlexer : c.outputLexer = .csi) (code : UInt8) :
    (c.conLexerCsi code).outputLexer = .initial ∨ (c.conLexerCsi code).outputLexer = .csi := by
  unfold conLexerCsi
  simp only []
  split
  · exact .inl rfl
  split
  · exact .inl rfl
  · exact .inr hlexer

/-- A byte keeps two consoles matching. -/
theorem Matching.conWrite (h : Matching c c') (code : UInt8) :
    Matching (c.conWrite code) (c'.conWrite code) := by
  obtain ⟨hagree, hcsi, hst⟩ := h
  generalize c'.sequence = bytes at hagree hcsi hst
  rw [hagree]
  rcases hlexer : c.outputLexer with _ | _ | _ | _
  · rw [conWrite_initial hlexer, conWrite_initial rfl]
    exact conLexerInitial_matching hlexer bytes code
  · rw [conWrite_escape hlexer, conWrite_escape rfl]
    exact conLexerEscape_matching hlexer bytes code
  · rw [collecting_self hlexer (hcsi hlexer).symm, conWrite_csi hlexer]
    exact .refl_of_control (conLexerCsi_cases hlexer code)
  · obtain ⟨short, long, body, hshort, rfl, hs, hl⟩ := hst hlexer
    have hself := collecting_self hlexer hshort
    rw [← hself, conWrite_untilSt rfl, conLexerUntilSt_eq hs]
    show Matching _ ((c.collecting .untilSt (long :: body)).conWrite code)
    rw [conWrite_untilSt rfl, conLexerUntilSt_eq hl, afterString]
    split
    · exact .of_initial rfl rfl
    split
    · exact .of_initial rfl rfl
    · exact ⟨rfl, nofun, fun _ => ⟨short, long, body ++ [code], rfl, rfl, hs, hl⟩⟩

theorem Matching.writeAll (bytes : List UInt8) :
    ∀ {c c' : Console}, Matching c c' → Matching (c.writeAll bytes) (c'.writeAll bytes) := by
  induction bytes with
  | nil => exact fun h => h
  | cons code bytes ih => exact fun h => ih (h.conWrite code)

/-! ## The two forms -/

/-- The one-byte introducers with the bytes that follow the escape character in
their two-byte forms. -/
def introducers : List (UInt8 × UInt8) :=
  [(ansiEscCsi, ansiCsi), (ansiEscDcs, ansiDcs), (ansiEscOsc, ansiOsc)]

/-- As long as shortcuts are enabled, both forms of an introducer lead to the same
console, whatever follows, except for the bytes in its sequence buffer. -/
theorem writeAll_introducer (hlexer : c.outputLexer = .initial) (hshortcuts : c.shortcuts = true)
    {introducer : UInt8 × UInt8} (h : introducer ∈ introducers) (bytes : List UInt8) :
    let short := c.writeAll (introducer.1 :: bytes)
    let long := c.writeAll (ansiEscape :: introducer.2 :: bytes)
    long = { short with sequence := long.sequence } := by
  have hescape : c.conWrite ansiEscape = { c with outputLexer := .escape } := by
    rw [conWrite_initial hlexer]
    rfl
  suffices hbegun : Matching (c.conWrite introducer.1)
      ((c.conWrite ansiEscape).conWrite introducer.2) from (hbegun.writeAll bytes).agree
  rw [hescape, conWrite_initial hlexer, conWrite_escape rfl]
  rcases List.mem_cons.mp h with rfl | h
  · have hshort : c.conLexerInitial ansiEscCsi = c.collecting .csi [ansiCsi] := by
      unfold conLexerInitial
      rw [if_neg (by decide), if_neg (by decide), if_neg (by decide), if_neg (by decide),
        if_pos ⟨hshortcuts, rfl⟩]
      rfl
    rw [hshort]
    exact .control c [ansiCsi]
  rcases List.mem_cons.mp h with rfl | h
  · have hshort : c.conLexerInitial ansiEscDcs = c.collecting .untilSt [ansiCsi] := by
      unfold conLexerInitial
      rw [if_neg (by decide), if_neg (by decide), if_neg (by decide), if_neg (by decide),
        if_neg (by simp +decide), if_pos ⟨hshortcuts, .inl rfl⟩]
      rfl
    rw [hshort]
    exact .begin c (by decide) (by decide)
  · rw [List.mem_singleton.mp h]
    have hshort : c.conLexerInitial ansiEscOsc = c.collecting .untilSt [ansiCsi] := by
      unfold conLexerInitial
      rw [if_neg (by decide), if_neg (by decide), if_neg (by decide), if_neg (by decide),
        if_neg (by simp +decide), if_pos ⟨hshortcuts, .inr rfl⟩]
      rfl
    rw [hshort]
    exact .begin c (by decide) (by decide)

/-- A device control string that is ended properly, then a letter. -/
theorem writeAll_introducer_deviceControl :
    let short := (blank.conInit 80 25).writeAll (ansiEscDcs :: [0x41, ansiEscape, ansiSt, 0x42])
    let long :=
      (blank.conInit 80 25).writeAll (ansiEscape :: ansiDcs :: [0x41, ansiEscape, ansiSt, 0x42])
    long = { short with sequence := long.sequence } :=
  writeAll_introducer (by decide +kernel) (by decide +kernel)
    (show (ansiEscDcs, ansiDcs) ∈ introducers by decide) _

end Console

end Neos
