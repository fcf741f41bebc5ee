import Neos.Console.Motion
import Neos.Console.Scrolling

/-!
# Erasing the display and the line

Every way of erasing hands two positions to `con_erase`, which does not erase the
cell at the second one.  Whole displays and whole lines therefore keep their last
cell, while the two partial modes still meet at the cursor.
-/

namespace Neos

open BitMemory

namespace Console

variable {c c' : Console}

/-- The sequence that erases in a mode. -/
def eraseSequence (final : UInt8) (mode : ℕ) : List UInt8 :=
  controlSequence (parameterText (some mode)) final

/-- The cells of the screen that hold something else than before. -/
def changed (c c' : Console) : Set (ℤ × ℤ) :=
  {p | c.InSight p.1 p.2 ∧ c'.cellAt p.1 p.2 ≠ c.cellAt p.1 p.2}

/-- Every cell of the screen is blank. -/
def AllBlank (c : Console) : Prop := ∀ x y, c.InSight x y → c.cellAt x y = blankCell

/-- The row of the cursor was blanked, and no other cell changed. -/
def RowBlanked (c c' : Console) : Prop :=
  ∀ x y, c.InSight x y → c'.cellAt x y = if y = c.y then blankCell else c.cellAt x y

/-- Erasing after the cursor and erasing before it together change what erasing
the whole does. -/
def ModesCover (c : Console) (final : UInt8) : Prop :=
  changed c (c.writeAll (eraseSequence final 0)) ∪ changed c (c.writeAll (eraseSequence final 1)) =
    changed c (c.writeAll (eraseSequence final 2))

/-- What erasing should do on a screen. -/
structure ErasesWhole (c : Console) : Prop where
  display : (c.writeAll (eraseSequence ansiCsiEd 2)).AllBlank
  init : (c.conInit c.width c.height).AllBlank
  line : RowBlanked c (c.writeAll (eraseSequence ansiCsiEl 2))
  displayModes : ModesCover c ansiCsiEd
  lineModes : ModesCover c ansiCsiEl

/-! ## Cells between two positions -/

theorem cellAt_congr (hm : c'.memory = c.memory) (hw : c'.width = c.width) (x y : ℤ) :
    c'.cellAt x y = c.cellAt x y := by
  unfold cellAt conAt
  rw [hm, hw]

theorem inSight_congr (hw : c'.width = c.width) (hh : c'.height = c.height) {x y : ℤ} :
    c'.InSight x y ↔ c.InSight x y := by
  constructor
  · rintro ⟨hx₀, hx, hy₀, hy⟩
    exact ⟨hx₀, hw ▸ hx, hy₀, hh ▸ hy⟩
  · rintro ⟨hx₀, hx, hy₀, hy⟩
    exact ⟨hx₀, hw ▸ hx, hy₀, hh ▸ hy⟩

/-- The number of a cell, row by row. -/
def cellNumber (c : Console) (x y : ℤ) : ℤ := x + y * c.width

/-- Erasing blanks the cells from the first position on and before the second
one. -/
theorem Placed.conErase_cellAt (hc : c.Placed) {x₁ y₁ x₂ y₂ x y : ℤ} (h₁ : c.InSight x₁ y₁)
    (h₂ : c.InSight x₂ y₂) (hxy : c.InSight x y) :
    (c.conErase x₁ y₁ x₂ y₂).cellAt x y =
      if c.cellNumber x₁ y₁ ≤ c.cellNumber x y ∧ c.cellNumber x y < c.cellNumber x₂ y₂ then blankCell
      else c.cellAt x y := by
  have heven := conAt_even c x y
  have hcell := (hc.conAt_cell hxy.x_nonneg hxy.x_lt hxy.y_nonneg hxy.y_lt).1
  have hfirst := (hc.conAt_cell h₁.x_nonneg h₁.x_lt h₁.y_nonneg h₁.y_lt).1
  have hstop := (hc.conAt_cell h₂.x_nonneg h₂.x_lt h₂.y_nonneg h₂.y_lt).1
  have herased : (c.conErase x₁ y₁ x₂ y₂).cellAt x y =
      cellAt { c with memory := erased c.memory (c.conAt x₁ y₁) (c.conAt x₂ y₂) } x y :=
    cellAt_congr (c := { c with memory := erased c.memory (c.conAt x₁ y₁) (c.conAt x₂ y₂) })
      (conErase_memory c x₁ y₁ x₂ y₂) (conErase_kept c x₁ y₁ x₂ y₂).width x y
  have hself : c.cellAt x y = ⟨c.memory (c.conAt x y), c.memory (c.conAt x y + 1)⟩ :=
    hc.cellAt_eq c.memory hxy
  rw [herased, hc.cellAt_eq _ hxy, hself, erased, erased]
  unfold cellNumber
  by_cases hin : x₁ + y₁ * c.width ≤ x + y * c.width ∧ x + y * c.width < x₂ + y₂ * c.width
  · rw [if_pos (by omega), if_pos heven, if_pos (by omega), if_neg (by omega), if_pos hin]
    rfl
  · rw [if_neg (by omega), if_neg (by omega), if_neg hin]

theorem InSight.eq_of_number {x y x' y' : ℤ} (h : c.InSight x y) (h' : c.InSight x' y')
    (heq : c.cellNumber x y = c.cellNumber x' y') : x = x' ∧ y = y' :=
  cell_number_inj h.x_nonneg h.x_lt h'.x_nonneg h'.x_lt heq

/-- Rows are numbered one after the other. -/
theorem InSight.number_lt_of_row_lt {x y x' y' : ℤ} (h : c.InSight x y) (h' : c.InSight x' y')
    (hrow : y < y') : c.cellNumber x y < c.cellNumber x' y' := by
  have hw := h.x_lt
  have hx₀ := h.x_nonneg
  have hx₀' := h'.x_nonneg
  have hrows := Int.mul_le_mul_of_nonneg_right (show y + 1 ≤ y' from hrow)
    (show 0 ≤ c.width by omega)
  have hnext : (y + 1) * c.width = y * c.width + c.width := by ring
  unfold cellNumber
  omega

/-! ## The sequences -/

/-- What is erased depends on the memory and on the width of the screen only. -/
theorem conErase_memory_congr (hm : c'.memory = c.memory) (hw : c'.width = c.width)
    (x₁ y₁ x₂ y₂ : ℤ) : (c'.conErase x₁ y₁ x₂ y₂).memory = (c.conErase x₁ y₁ x₂ y₂).memory := by
  rw [conErase_memory, conErase_memory, hm, conAt, conAt, conAt, conAt, hw]

/-- A sequence that erases leaves the memory that its branch leaves. -/
theorem writeAll_erase (hlexer : c.outputLexer = .initial) {n : ℕ} (hn : n < 2 ^ 15)
    {final : UInt8} (hfinal : ansiCsiFinal final) {m : Memory}
    (herase : ∀ s : Console, s.memory = c.memory → s.width = c.width → s.height = c.height →
      s.x = c.x → s.y = c.y →
      s.sequence.getD ((parameterText (some n)).length + 1) 0 = final →
      (conNextInt s.sequence 1 ((parameterText (some n)).length + 1) 0).1 = n →
        (s.conCsiExecute 1 ((parameterText (some n)).length + 1)).memory = m) :
    (c.writeAll (eraseSequence final n)).memory = m ∧
      (c.writeAll (eraseSequence final n)).width = c.width ∧
        (c.writeAll (eraseSequence final n)).height = c.height := by
  have hp : ∀ k ∈ some n, k < 2 ^ 15 := fun k hk => Option.mem_some.mp hk ▸ hn
  have hkept := (c.entered (parameterText (some n)) final).conCsiExecute_follows 1
    ((parameterText (some n)).length + 1)
  rw [eraseSequence, writeAll_parameter hlexer hp hfinal]
  refine ⟨?_, hkept.width, hkept.height⟩
  apply herase (c.entered (parameterText (some n)) final)
  · rfl
  · rfl
  · rfl
  · rfl
  · rfl
  · exact collected_final _ _
  · exact collected_parameter (fun k hk => (hp k hk).trans (by decide)) hfinal 0

theorem writeAll_eraseDisplay (hlexer : c.outputLexer = .initial) {n : ℕ} (hn : n < 2 ^ 15) :
    (c.writeAll (eraseSequence ansiCsiEd n)).memory = (c.eraseDisplay n).memory ∧
      (c.writeAll (eraseSequence ansiCsiEd n)).width = c.width ∧
        (c.writeAll (eraseSequence ansiCsiEd n)).height = c.height := by
  apply writeAll_erase hlexer hn (by decide)
  intro s hm hw hh hx hy hcode harg
  have hbranch : s.conCsiExecute 1 ((parameterText (some n)).length + 1) = s.eraseDisplay n := by
    unfold conCsiExecute
    simp only [hcode, harg, if_true]
    rw [if_neg (by decide), if_neg (by decide), if_neg (by decide), if_neg (by decide),
      if_neg (by decide), if_neg (by decide), if_neg (by decide)]
  rw [hbranch]
  unfold eraseDisplay
  rw [hw, hh, hx, hy]
  split
  · exact conErase_memory_congr hm hw _ _ _ _
  split
  · exact conErase_memory_congr hm hw _ _ _ _
  split
  · exact conErase_memory_congr hm hw _ _ _ _
  · exact hm

theorem writeAll_eraseLine (hlexer : c.outputLexer = .initial) {n : ℕ} (hn : n < 2 ^ 15) :
    (c.writeAll (eraseSequence ansiCsiEl n)).memory = (c.eraseLine n).memory ∧
      (c.writeAll (eraseSequence ansiCsiEl n)).width = c.width ∧
        (c.writeAll (eraseSequence ansiCsiEl n)).height = c.height := by
  apply writeAll_erase hlexer hn (by decide)
  intro s hm hw hh hx hy hcode harg
  have hbranch : s.conCsiExecute 1 ((parameterText (some n)).length + 1) = s.eraseLine n := by
    unfold conCsiExecute
    simp only [hcode, harg, if_true]
    rw [if_neg (by decide), if_neg (by decide), if_neg (by decide), if_neg (by decide),
      if_neg (by decide), if_neg (by decide), if_neg (by decide), if_neg (by decide)]
  rw [hbranch]
  unfold eraseLine
  rw [hw, hx, hy]
  split
  · exact conErase_memory_congr hm hw _ _ _ _
  split
  · exact conErase_memory_congr hm hw _ _ _ _
  split
  · exact conErase_memory_congr hm hw _ _ _ _
  · exact hm

/-! ## Which cells change -/

/-- The corners of the screen and of the row of the cursor. -/
theorem OnScreen.inSight (hs : c.OnScreen) :
    c.InSight c.x c.y ∧ c.InSight 0 0 ∧ c.InSight (c.width - 1) (c.height - 1) ∧
      c.InSight 0 c.y ∧ c.InSight (c.width - 1) c.y := by
  obtain ⟨hx₀, hx, hy₀, hy⟩ := hs
  exact ⟨⟨hx₀, hx, hy₀, hy⟩, ⟨le_refl 0, by omega, le_refl 0, by omega⟩,
    ⟨by omega, by omega, by omega, by omega⟩, ⟨le_refl 0, by omega, hy₀, hy⟩,
    ⟨by omega, by omega, hy₀, hy⟩⟩

theorem InSight.number_le_last {x y : ℤ} (h : c.InSight x y) :
    c.cellNumber x y ≤ c.cellNumber (c.width - 1) (c.height - 1) := by
  obtain ⟨hx₀, hx, hy₀, hy⟩ := h
  have hrows := Int.mul_le_mul_of_nonneg_right (show y ≤ c.height - 1 by omega)
    (show 0 ≤ c.width by omega)
  unfold cellNumber
  omega

theorem InSight.number_nonneg {x y : ℤ} (h : c.InSight x y) : c.cellNumber 0 0 ≤ c.cellNumber x y := by
  obtain ⟨hx₀, hx, hy₀, hy⟩ := h
  have habove : 0 ≤ y * c.width := Int.mul_nonneg hy₀ (by omega)
  unfold cellNumber
  omega

/-- Erasing changes the cells between the two positions that were not blank. -/
theorem Placed.mem_changed (hc : c.Placed) {x₁ y₁ x₂ y₂ : ℤ} (h₁ : c.InSight x₁ y₁)
    (h₂ : c.InSight x₂ y₂) (hm : c'.memory = (c.conErase x₁ y₁ x₂ y₂).memory)
    (hw : c'.width = c.width) (p : ℤ × ℤ) :
    p ∈ changed c c' ↔
      c.InSight p.1 p.2 ∧ (c.cellNumber x₁ y₁ ≤ c.cellNumber p.1 p.2 ∧
        c.cellNumber p.1 p.2 < c.cellNumber x₂ y₂) ∧ c.cellAt p.1 p.2 ≠ blankCell := by
  apply and_congr_right
  intro hp
  rw [cellAt_congr hm (hw.trans (conErase_kept c x₁ y₁ x₂ y₂).width.symm),
    hc.conErase_cellAt h₁ h₂ hp]
  split
  · rename_i hin
    rw [and_iff_right hin]
    exact ne_comm
  · rename_i hout
    exact iff_of_false (fun h => h rfl) (fun h => hout h.1)

/-- Two erasures that meet change what the erasure of both ranges does. -/
theorem Placed.changed_union (hc : c.Placed) {x₁ y₁ x₂ y₂ x₃ y₃ : ℤ} (h₁ : c.InSight x₁ y₁)
    (h₂ : c.InSight x₂ y₂) (h₃ : c.InSight x₃ y₃)
    (h₁₂ : c.cellNumber x₁ y₁ ≤ c.cellNumber x₂ y₂) (h₂₃ : c.cellNumber x₂ y₂ ≤ c.cellNumber x₃ y₃)
    {after before whole : Console} (hafter : after.memory = (c.conErase x₂ y₂ x₃ y₃).memory)
    (hafter' : after.width = c.width) (hbefore : before.memory = (c.conErase x₁ y₁ x₂ y₂).memory)
    (hbefore' : before.width = c.width) (hwhole : whole.memory = (c.conErase x₁ y₁ x₃ y₃).memory)
    (hwhole' : whole.width = c.width) :
    changed c after ∪ changed c before = changed c whole := by
  ext p
  rw [Set.mem_union, hc.mem_changed h₂ h₃ hafter hafter', hc.mem_changed h₁ h₂ hbefore hbefore',
    hc.mem_changed h₁ h₃ hwhole hwhole']
  constructor
  · rintro (⟨hp, hin, hcell⟩ | ⟨hp, hin, hcell⟩)
    · exact ⟨hp, ⟨by omega, by omega⟩, hcell⟩
    · exact ⟨hp, ⟨by omega, by omega⟩, hcell⟩
  · rintro ⟨hp, hin, hcell⟩
    rcases lt_or_ge (c.cellNumber p.1 p.2) (c.cellNumber x₂ y₂) with hlow | hhigh
    · exact .inr ⟨hp, ⟨hin.1, hlow⟩, hcell⟩
    · exact .inl ⟨hp, ⟨hhigh, hin.2⟩, hcell⟩

theorem displayModes_cover (hc : c.Placed) (hs : c.OnScreen) (hlexer : c.outputLexer = .initial) :
    ModesCover c ansiCsiEd := by
  obtain ⟨hcursor, hfirst, hlast, -⟩ := hs.inSight
  obtain ⟨hm₀, hw₀, -⟩ := writeAll_eraseDisplay hlexer (n := 0) (by decide)
  obtain ⟨hm₁, hw₁, -⟩ := writeAll_eraseDisplay hlexer (n := 1) (by decide)
  obtain ⟨hm₂, hw₂, -⟩ := writeAll_eraseDisplay hlexer (n := 2) (by decide)
  exact hc.changed_union hfirst hcursor hlast hcursor.number_nonneg hcursor.number_le_last
    hm₀ hw₀ hm₁ hw₁ hm₂ hw₂

theorem lineModes_cover (hc : c.Placed) (hs : c.OnScreen) (hlexer : c.outputLexer = .initial) :
    ModesCover c ansiCsiEl := by
  obtain ⟨hcursor, -, -, hfirst, hlast⟩ := hs.inSight
  have hx₀ := hs.x_nonneg
  have hx := hs.x_lt
  obtain ⟨hm₀, hw₀, -⟩ := writeAll_eraseLine hlexer (n := 0) (by decide)
  obtain ⟨hm₁, hw₁, -⟩ := writeAll_eraseLine hlexer (n := 1) (by decide)
  obtain ⟨hm₂, hw₂, -⟩ := writeAll_eraseLine hlexer (n := 2) (by decide)
  refine hc.changed_union hfirst hcursor hlast ?_ ?_ hm₀ hw₀ hm₁ hw₁ hm₂ hw₂
  · unfold cellNumber
    omega
  · unfold cellNumber
    omega

/-! ## What stays -/

/-- Erasing the whole screen leaves its last cell. -/
theorem allBlank_iff (hc : c.Placed) (hs : c.OnScreen)
    (hm : c'.memory = (c.conErase 0 0 (c.width - 1) (c.height - 1)).memory)
    (hw : c'.width = c.width) (hh : c'.height = c.height) :
    c'.AllBlank ↔ c.cellAt (c.width - 1) (c.height - 1) = blankCell := by
  obtain ⟨-, hfirst, hlast, -⟩ := hs.inSight
  have hcell : ∀ x y, c.InSight x y → c'.cellAt x y =
      if c.cellNumber x y < c.cellNumber (c.width - 1) (c.height - 1) then blankCell
      else c.cellAt x y := by
    intro x y hxy
    rw [cellAt_congr hm (hw.trans (conErase_kept c _ _ _ _).width.symm),
      hc.conErase_cellAt hfirst hlast hxy]
    simp only [hxy.number_nonneg, true_and]
  constructor
  · intro h
    have hblank := h _ _ ((inSight_congr hw hh).mpr hlast)
    rwa [hcell _ _ hlast, if_neg (lt_irrefl _)] at hblank
  · intro h x y hxy
    have hin := (inSight_congr hw hh).mp hxy
    rw [hcell x y hin]
    split
    · rfl
    · rename_i hnumber
      obtain ⟨rfl, rfl⟩ := hin.eq_of_number hlast
        (Int.le_antisymm hin.number_le_last (not_lt.mp hnumber))
      exact h

/-- Erasing the whole row of the cursor leaves its last cell. -/
theorem rowBlanked_iff (hc : c.Placed) (hs : c.OnScreen)
    (hm : c'.memory = (c.conErase 0 c.y (c.width - 1) c.y).memory) (hw : c'.width = c.width) :
    RowBlanked c c' ↔ c.cellAt (c.width - 1) c.y = blankCell := by
  obtain ⟨-, -, -, hfirst, hlast⟩ := hs.inSight
  have hcell : ∀ x y, c.InSight x y → c'.cellAt x y =
      if c.cellNumber 0 c.y ≤ c.cellNumber x y ∧
        c.cellNumber x y < c.cellNumber (c.width - 1) c.y then blankCell
      else c.cellAt x y := by
    intro x y hxy
    rw [cellAt_congr hm (hw.trans (conErase_kept c _ _ _ _).width.symm),
      hc.conErase_cellAt hfirst hlast hxy]
  constructor
  · intro h
    have hblank := h _ _ hlast
    rwa [hcell _ _ hlast, if_neg (fun hin => lt_irrefl _ hin.2), if_pos rfl] at hblank
  · intro h x y hxy
    rw [hcell x y hxy]
    have hx₀ := hxy.x_nonneg
    have hx := hxy.x_lt
    rcases lt_trichotomy y c.y with habove | rfl | hbelow
    · have hnumber := hxy.number_lt_of_row_lt hfirst habove
      rw [if_neg (fun hin => absurd hin.1 (not_le.mpr hnumber)), if_neg habove.ne]
    · rw [if_pos rfl]
      split
      · rfl
      · rename_i hout
        have hcolumn : x = c.width - 1 := by
          unfold cellNumber at hout
          omega
        rw [hcolumn]
        exact h
    · have hnumber := hlast.number_lt_of_row_lt hxy hbelow
      rw [if_neg (fun hin => absurd hin.2 (not_lt.mpr hnumber.le)), if_neg hbelow.ne']

/-- On a screen of any size with any contents, erasing does what it should exactly
when the last cell of the screen and the last cell of the row of the cursor are
already blank. -/
theorem erasesWhole_iff (hc : c.Placed) (hs : c.OnScreen) (hlexer : c.outputLexer = .initial) :
    c.ErasesWhole ↔
      c.cellAt (c.width - 1) (c.height - 1) = blankCell ∧
        c.cellAt (c.width - 1) c.y = blankCell := by
  obtain ⟨hmd, hwd, hhd⟩ := writeAll_eraseDisplay hlexer (n := 2) (by decide)
  obtain ⟨hml, hwl, -⟩ := writeAll_eraseLine hlexer (n := 2) (by decide)
  have hkept := conErase_kept (c.fresh c.width c.height) 0 0 (c.width - 1) (c.height - 1)
  have hinit : (c.conInit c.width c.height).AllBlank ↔
      c.cellAt (c.width - 1) (c.height - 1) = blankCell := by
    have hmemory : (c.fresh c.width c.height).memory = c.memory := rfl
    rw [conInit_eq]
    exact allBlank_iff hc hs (conErase_memory_congr hmemory rfl _ _ _ _) hkept.width hkept.height
  have hdisplay := allBlank_iff hc hs hmd hwd hhd
  have hline := rowBlanked_iff hc hs hml hwl
  constructor
  · intro h
    exact ⟨hdisplay.mp h.display, hline.mp h.line⟩
  · rintro ⟨hlast, hrow⟩
    exact ⟨hdisplay.mpr hlast, hinit.mpr hlast, hline.mpr hrow, displayModes_cover hc hs hlexer,
      lineModes_cover hc hs hlexer⟩

/-- A text screen with a letter in every cell. -/
def letters : Console := fresh { blank with memory := fun _ => 'A'.toUInt8 } 80 25

theorem letters_placed : letters.Placed := ⟨by decide, by decide, by decide⟩

theorem letters_onScreen : letters.OnScreen := ⟨by decide, by decide, by decide, by decide⟩

/-- The text screen full of letters. -/
theorem erasesWhole_iff_letters :
    letters.ErasesWhole ↔
      letters.cellAt (letters.width - 1) (letters.height - 1) = blankCell ∧
        letters.cellAt (letters.width - 1) letters.y = blankCell :=
  erasesWhole_iff letters_placed letters_onScreen rfl

/-- `con_init` leaves the letter in the last cell of the text screen. -/
theorem last_cell_left :
    ¬ ∀ c : Console, c.Placed → c.OnScreen → c.outputLexer = .initial → c.ErasesWhole := by
  intro h
  have hinit := (h letters letters_placed letters_onScreen rfl).init
  have hblank := hinit 79 24 ⟨by decide, by decide +kernel, by decide, by decide +kernel⟩
  exact absurd hblank (by decide +kernel)

end Console

end Neos
