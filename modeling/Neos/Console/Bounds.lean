import Mathlib.Data.List.Infix
import Mathlib.Tactic.Ring
import Neos.Console.Model

/-!
# The cursor stays on the screen

Every operation of the console is described by what it does to the cursor and by
the addresses it accesses.  A byte takes the cursor off the screen exactly when
it completes a control sequence whose parameter makes the cursor arithmetic
overflow in the wrong direction, or is a tab within three columns of the largest
`int`.
-/

namespace Neos

open BitMemory

namespace Console

variable {c : Console} {code : UInt8}

/-- The byte addresses of the cells of the screen. -/
def screen (c : Console) : Set ℕ :=
  {a | ∃ i : ℤ, 0 ≤ i ∧ i < 2 * (c.width * c.height) ∧ a = toWord (0xB8000 + i)}

/-- The cursor is on the screen. -/
structure OnScreen (c : Console) : Prop where
  x_nonneg : 0 ≤ c.x
  x_lt : c.x < c.width
  y_nonneg : 0 ≤ c.y
  y_lt : c.y < c.height

/-- The cursor is on the screen, and only cells of the screen were accessed. -/
structure Bounded (c : Console) : Prop where
  cursor : c.OnScreen
  touched : ∀ a ∈ c.touched, a ∈ c.screen

/-- The dimensions are positive `int`s and the saved position is on the screen. -/
structure Framed (c : Console) : Prop where
  width_pos : 1 ≤ c.width
  width_lt : c.width < 2 ^ 31
  height_pos : 1 ≤ c.height
  height_lt : c.height < 2 ^ 31
  sx_nonneg : 0 ≤ c.sx
  sx_lt : c.sx < c.width
  sy_nonneg : 0 ≤ c.sy
  sy_lt : c.sy < c.height

/-- What a run keeps besides the bounds: a sequence being collected begins with
its introducer and leaves room for another byte. -/
structure Ready (c : Console) : Prop extends Framed c where
  introducer : c.outputLexer = .csi → c.sequence.getD 0 0 = ansiCsi
  room : c.outputLexer = .csi ∨ c.outputLexer = .untilSt →
    0 < c.sequence.length ∧ c.sequence.length < consoleMaxAnsiSequence

/-! ## Parameters of control sequences -/

/-- The digits at the start of a list of bytes. -/
def digits (bytes : List UInt8) : List UInt8 := bytes.takeWhile isDigit

/-- The number that a list of decimal digits denotes. -/
def decimal (ds : List UInt8) : ℤ := ds.foldl (fun n d => n * 10 + (d.toNat - 48)) 0

/-- The parameter that follows the introducer of a control sequence, as an
`int`. -/
def parameter (sequence : List UInt8) (fallback : ℤ) : ℤ :=
  if digits sequence.tail = [] then fallback else wrapInt (decimal (digits sequence.tail))

/-- Scrolling moves the cursor by no more than an `int` holds. -/
def ScrollFits (c : Console) (offset : ℤ) : Prop :=
  offset < 0 → -offset < 2 ^ 31 ∧ c.y + min (-offset) c.height < 2 ^ 31

/-- The parameter of a control sequence does not push the cursor off the screen:
no movement up or left goes down or right beyond the screen, and none down or
right ends below zero. -/
@[mk_iff]
structure HarmlessParameter (c : Console) (code : UInt8) (arg : ℤ) : Prop where
  up : code = ansiCsiCuu → c.y - arg < c.height ∨ 2 ^ 31 ≤ c.y - arg
  down : code = ansiCsiCud ∨ code = ansiCsiCnl → 0 ≤ c.y + arg ∧ c.y + arg < 2 ^ 31
  forward : code = ansiCsiCuf → 0 ≤ c.x + arg ∧ c.x + arg < 2 ^ 31
  backward : code = ansiCsiCub → c.x - arg < c.width ∨ 2 ^ 31 ≤ c.x - arg
  scrollUp : code = ansiCsiSu → c.ScrollFits arg
  scrollDown : code = ansiCsiSd → c.ScrollFits (wrapInt (-arg))

/-- A byte that does not take the cursor off the screen. -/
structure Harmless (c : Console) (code : UInt8) : Prop where
  tab : c.outputLexer = .initial → code = ansiTab → c.x + 3 < 2 ^ 31
  sequence : c.outputLexer = .csi →
    c.HarmlessParameter code (parameter (c.sequence ++ [code]) 1)

/-! ## Addresses of cells -/

theorem toWord_add_wrapInt (a b : ℤ) : toWord (a + 2 * wrapInt b) = toWord (a + 2 * b) := by
  rw [wrapInt_eq]
  unfold toWord
  split <;> omega

theorem wrap_toWord_add (z : ℤ) (j : ℕ) : wrap (toWord z + j) = toWord (z + j) := by
  unfold wrap toWord
  omega

theorem conAt_eq (c : Console) (x y : ℤ) :
    c.conAt x y = toWord (0xB8000 + 2 * (x + y * c.width)) :=
  toWord_add_wrapInt _ _

/-- A byte of a cell that lies in the screen. -/
theorem mem_screen {i : ℤ} {j : ℕ} (h₀ : 0 ≤ i) (h₁ : i + j < 2 * (c.width * c.height)) :
    wrap (toWord (0xB8000 + i) + j) ∈ c.screen := by
  refine ⟨i + j, by omega, h₁, ?_⟩
  rw [wrap_toWord_add, add_assoc]

/-- The erasing loop writes the bytes between its ends. -/
theorem eraseLoop_eq (stop : ℕ) :
    ∀ (fuel glyph : ℕ) (c : Console), glyph % 2 = 0 → stop % 2 = 0 → stop < 2 ^ 32 →
      ∃ m t, eraseLoop stop fuel glyph c = { c with memory := m, touched := t } ∧
        ∀ a ∈ t, a ∈ c.touched ∨ ∃ j, glyph + j < stop ∧ a = wrap (glyph + j)
  | 0, _, c, _, _, _ => ⟨c.memory, c.touched, rfl, fun _ ha => .inl ha⟩
  | fuel + 1, glyph, c, hglyph, hstop, hlt => by
      unfold eraseLoop
      split
      · rename_i h
        have hnext : wrap (glyph + 2) = glyph + 2 := wrap_of_lt (by omega)
        rw [hnext]
        obtain ⟨m, t, heq, ht⟩ := eraseLoop_eq stop fuel (glyph + 2)
          ((c.poke glyph 0).poke (glyph + 1) consoleDefaultAttribute) (by omega) hstop hlt
        refine ⟨m, t, heq, ?_⟩
        intro a ha
        rcases ht a ha with hold | ⟨j, hj, rfl⟩
        · rcases List.mem_cons.mp hold with rfl | hold
          · exact .inr ⟨1, by omega, rfl⟩
          · rcases List.mem_cons.mp hold with rfl | hold
            · exact .inr ⟨0, h, rfl⟩
            · exact .inl hold
        · exact .inr ⟨j + 2, by omega, by rw [Nat.add_assoc, Nat.add_comm j]⟩
      · exact ⟨c.memory, c.touched, rfl, fun _ ha => .inl ha⟩

theorem toWord_even (z : ℤ) : toWord (0xB8000 + 2 * z) % 2 = 0 := by
  unfold toWord
  omega

theorem toWord_lt (z : ℤ) : toWord z < 2 ^ 32 := by
  unfold toWord
  omega

/-- The erasing loop ends by its own test: more fuel changes nothing. -/
theorem eraseLoop_ends (stop : ℕ) :
    ∀ (fuel glyph : ℕ) (c : Console), glyph % 2 = 0 → stop % 2 = 0 → stop < 2 ^ 32 →
      stop ≤ glyph + fuel → ∀ more,
        eraseLoop stop (fuel + more) glyph c = eraseLoop stop fuel glyph c
  | 0, glyph, c, _, _, _, hfuel, more => by
      cases more with
      | zero => rfl
      | succ more =>
          rw [Nat.zero_add]
          exact if_neg (not_lt.mpr hfuel)
  | fuel + 1, glyph, c, hglyph, hstop, hlt, hfuel, more => by
      rw [Nat.add_right_comm]
      unfold eraseLoop
      split
      · have hnext : wrap (glyph + 2) = glyph + 2 := wrap_of_lt (by omega)
        rw [hnext]
        exact eraseLoop_ends stop fuel (glyph + 2) _ (by omega) hstop hlt (by omega) more
      · rfl

/-- Erasing a selection of the screen accesses only the screen. -/
theorem conErase_eq (c : Console) (x₁ y₁ x₂ y₂ : ℤ) :
    ∃ m t, c.conErase x₁ y₁ x₂ y₂ = { c with memory := m, touched := t } ∧
      (0 ≤ x₁ + y₁ * c.width → x₁ + y₁ * c.width ≤ x₂ + y₂ * c.width →
        x₂ + y₂ * c.width ≤ c.width * c.height →
          ∀ a ∈ t, a ∈ c.touched ∨ a ∈ c.screen) := by
  unfold conErase
  rw [conAt_eq, conAt_eq]
  generalize hi : x₁ + y₁ * c.width = i
  generalize hj : x₂ + y₂ * c.width = j
  obtain ⟨m, t, heq, ht⟩ := eraseLoop_eq (toWord (0xB8000 + 2 * j))
    (toWord (0xB8000 + 2 * j) - toWord (0xB8000 + 2 * i)) (toWord (0xB8000 + 2 * i)) c
    (toWord_even i) (toWord_even j) (toWord_lt _)
  refine ⟨m, t, heq, ?_⟩
  intro h₀ hij hjend a ha
  rcases ht a ha with hold | ⟨k, hk, rfl⟩
  · exact .inl hold
  · refine .inr (mem_screen (by omega) ?_)
    -- Reduced modulo `2 ^ 32`, the two ends are no further apart than they were.
    have hspan : toWord (0xB8000 + 2 * i) + k < toWord (0xB8000 + 2 * j) := hk
    unfold toWord at hspan
    omega

/-- `con_erase` stops where its own loop does. -/
theorem conErase_ends (c : Console) (x₁ y₁ x₂ y₂ : ℤ) (more : ℕ) :
    eraseLoop (c.conAt x₂ y₂) (c.conAt x₂ y₂ - c.conAt x₁ y₁ + more) (c.conAt x₁ y₁) c =
      c.conErase x₁ y₁ x₂ y₂ := by
  rw [conErase]
  apply eraseLoop_ends
  · rw [conAt_eq]
    exact toWord_even _
  · rw [conAt_eq]
    exact toWord_even _
  · exact toWord_lt _
  · omega

/-- Moving rows of the screen accesses only the screen. -/
theorem move_eq (c : Console) (i j bytes : ℤ) :
    ∃ m t, c.move (toWord (0xB8000 + i)) (toWord (0xB8000 + j)) bytes =
        { c with memory := m, touched := t } ∧
      (0 ≤ i → i + bytes ≤ 2 * (c.width * c.height) → 0 ≤ j →
        j + bytes ≤ 2 * (c.width * c.height) → ∀ a ∈ t, a ∈ c.touched ∨ a ∈ c.screen) := by
  refine ⟨_, _, rfl, ?_⟩
  intro hi hiend hj hjend a ha
  split at ha
  · exact .inl ha
  · rw [List.mem_append, List.mem_append, List.mem_map, List.mem_map] at ha
    rcases ha with (⟨k, hk, rfl⟩ | ⟨k, hk, rfl⟩) | hold
    · have hlt := List.mem_range.mp hk
      exact .inr (mem_screen hi (by omega))
    · have hlt := List.mem_range.mp hk
      exact .inr (mem_screen hj (by omega))
    · exact .inl hold

/-! ## The cursor -/

/-- `con_cursor` sets the position and nothing else. -/
theorem conCursor_eq (c : Console) (nx ny : ℤ) :
    c.conCursor nx ny = { c with x := nx, y := ny } := by
  unfold conCursor
  split
  · rfl
  · rename_i h
    obtain ⟨hx, hy⟩ := not_or.mp h
    rw [not_not.mp hx, not_not.mp hy]

/-- The `long` byte count of some rows. -/
theorem wrapInt_row_bytes (k w : ℤ) : wrapInt (k * wrapInt (w * 2)) = wrapInt (2 * (k * w)) := by
  apply wrapInt_congr
  rw [Int.mul_emod, wrapInt_emod, ← Int.mul_emod, ← mul_assoc, mul_comm (k * w)]

theorem wrapInt_le_self {z : ℤ} (h : 0 ≤ z) : wrapInt z ≤ z := by
  rw [wrapInt_eq]
  split <;> omega

/-- The content moves up by some rows, and the rows left at the bottom are
erased. -/
theorem rowsUp_eq (c : Console) {lines : ℤ} (hw : 0 ≤ c.width) (h₀ : 0 ≤ lines)
    (h₁ : lines ≤ c.height) :
    ∃ m t, (c.move (c.conAt 0 0) (c.conAt 0 lines)
          (wrapInt ((c.height - lines) * wrapInt (c.width * 2)))).conErase 0 (c.height - lines) 0
            c.height = { c with memory := m, touched := t } ∧
      ∀ a ∈ t, a ∈ c.touched ∨ a ∈ c.screen := by
  have hall : c.height * c.width = (c.height - lines) * c.width + lines * c.width := by ring
  have harea : c.width * c.height = c.height * c.width := mul_comm _ _
  have hkept : 0 ≤ (c.height - lines) * c.width := Int.mul_nonneg (by omega) hw
  have hgone : 0 ≤ lines * c.width := Int.mul_nonneg h₀ hw
  rw [conAt_eq, conAt_eq, wrapInt_row_bytes]
  have hbytes := wrapInt_le_self (z := 2 * ((c.height - lines) * c.width)) (by omega)
  obtain ⟨m, t, hmove, ht⟩ := c.move_eq (2 * (0 + 0 * c.width)) (2 * (0 + lines * c.width))
    (wrapInt (2 * ((c.height - lines) * c.width)))
  obtain ⟨m', t', herase, ht'⟩ :=
    conErase_eq { c with memory := m, touched := t } 0 (c.height - lines) 0 c.height
  rw [hmove]
  refine ⟨m', t', herase, ?_⟩
  intro a ha
  have hcell := ht' (show 0 ≤ 0 + (c.height - lines) * c.width by omega)
    (show 0 + (c.height - lines) * c.width ≤ 0 + c.height * c.width by omega)
    (show 0 + c.height * c.width ≤ c.width * c.height by omega) a ha
  rcases hcell with hold | hnew
  · exact ht (by omega) (by omega) (by omega) (by omega) a hold
  · exact .inr hnew

/-- The content moves down by some rows, and the rows left at the top are
erased. -/
theorem rowsDown_eq (c : Console) {lines : ℤ} (hw : 0 ≤ c.width) (h₀ : 0 ≤ lines)
    (h₁ : lines ≤ c.height) :
    ∃ m t, (c.move (c.conAt 0 lines) (c.conAt 0 0)
          (wrapInt ((c.height - lines) * wrapInt (c.width * 2)))).conErase 0 0 0 lines =
        { c with memory := m, touched := t } ∧
      ∀ a ∈ t, a ∈ c.touched ∨ a ∈ c.screen := by
  have hall : c.height * c.width = (c.height - lines) * c.width + lines * c.width := by ring
  have harea : c.width * c.height = c.height * c.width := mul_comm _ _
  have hkept : 0 ≤ (c.height - lines) * c.width := Int.mul_nonneg (by omega) hw
  have hgone : 0 ≤ lines * c.width := Int.mul_nonneg h₀ hw
  rw [conAt_eq, conAt_eq, wrapInt_row_bytes]
  have hbytes := wrapInt_le_self (z := 2 * ((c.height - lines) * c.width)) (by omega)
  obtain ⟨m, t, hmove, ht⟩ := c.move_eq (2 * (0 + lines * c.width)) (2 * (0 + 0 * c.width))
    (wrapInt (2 * ((c.height - lines) * c.width)))
  obtain ⟨m', t', herase, ht'⟩ := conErase_eq { c with memory := m, touched := t } 0 0 0 lines
  rw [hmove]
  refine ⟨m', t', herase, ?_⟩
  intro a ha
  have hcell := ht' (show 0 ≤ 0 + 0 * c.width by omega)
    (show 0 + 0 * c.width ≤ 0 + lines * c.width by omega)
    (show 0 + lines * c.width ≤ c.width * c.height by omega) a ha
  rcases hcell with hold | hnew
  · exact ht (by omega) (by omega) (by omega) (by omega) a hold
  · exact .inr hnew

theorem cMin_eq_min (left right : ℤ) : cMin left right = min left right := by
  unfold cMin
  split <;> omega

/-- Scrolling up moves the rows that stay to the top and erases the others. -/
theorem conScroll_up_eq (hh : c.height < 2 ^ 31) (hh₁ : 1 ≤ c.height) (h₀ : 0 ≤ c.y)
    (hy : c.y ≤ c.height) {offset : ℤ} (h₁ : 0 < offset) :
    c.conScroll offset =
      ((c.move (c.conAt 0 0) (c.conAt 0 (min offset c.height))
          (wrapInt ((c.height - min offset c.height) * wrapInt (c.width * 2)))).conErase 0
            (c.height - min offset c.height) 0 c.height).conCursor c.x
              (max 0 (c.y - min offset c.height)) := by
  have hsign : sgn offset = 1 := by
    rw [sgn, if_neg (by omega), if_pos h₁]
  have habs : cAbs offset = offset := if_neg (by omega)
  generalize hlines : min offset c.height = lines
  have hmoves : wrapInt (c.height - lines) = c.height - lines :=
    wrapInt_of_fits (by omega) (by omega)
  have hclears : wrapInt (c.height - (c.height - lines)) = lines := by
    rw [wrapInt_of_fits (by omega) (by omega)]
    omega
  have hend : wrapInt (c.height - lines + lines) = c.height := by
    rw [wrapInt_of_fits (by omega) (by omega)]
    omega
  have hrow : wrapInt (c.y - lines) = c.y - lines := wrapInt_of_fits (by omega) (by omega)
  have hclamp : (if c.y - lines < 0 then 0 else c.y - lines) = max 0 (c.y - lines) := by
    split <;> omega
  unfold conScroll
  simp only [hsign, habs, cMin_eq_min, hlines, hmoves, hclears, hend]
  rw [if_neg (by decide), if_true]
  obtain ⟨m, t, herase, -⟩ := conErase_eq (c.move (c.conAt 0 0) (c.conAt 0 lines)
    (wrapInt ((c.height - lines) * wrapInt (c.width * 2)))) 0 (c.height - lines) 0 c.height
  rw [herase]
  show conCursor _ c.x (if wrapInt (c.y - lines) < 0 then 0 else wrapInt (c.y - lines)) = _
  rw [hrow, hclamp]

/-- Scrolling down moves the rows that stay to the bottom and erases the
others. -/
theorem conScroll_down_eq (hh : c.height < 2 ^ 31) (hh₁ : 1 ≤ c.height) {offset : ℤ}
    (h₁ : -2 ^ 31 < offset) (h₂ : offset < 0) :
    c.conScroll offset =
      ((c.move (c.conAt 0 (min (-offset) c.height)) (c.conAt 0 0)
          (wrapInt ((c.height - min (-offset) c.height) * wrapInt (c.width * 2)))).conErase 0 0 0
            (min (-offset) c.height)).conCursor c.x
              (min (wrapInt (c.y + min (-offset) c.height)) (c.height - 1)) := by
  have hsign : sgn offset = -1 := if_pos h₂
  have habs : cAbs offset = -offset := by
    rw [cAbs, if_pos h₂, wrapInt_of_fits (by omega) (by omega)]
  generalize hlines : min (-offset) c.height = lines
  have hmoves : wrapInt (c.height - lines) = c.height - lines :=
    wrapInt_of_fits (by omega) (by omega)
  have hclears : wrapInt (c.height - (c.height - lines)) = lines := by
    rw [wrapInt_of_fits (by omega) (by omega)]
    omega
  have hclamp : (if wrapInt (c.y + lines) > c.height - 1 then c.height - 1
      else wrapInt (c.y + lines)) = min (wrapInt (c.y + lines)) (c.height - 1) := by
    split <;> omega
  unfold conScroll
  simp only [hsign, habs, cMin_eq_min, hlines, hmoves, hclears]
  rw [if_true]
  obtain ⟨m, t, herase, -⟩ := conErase_eq (c.move (c.conAt 0 lines) (c.conAt 0 0)
    (wrapInt ((c.height - lines) * wrapInt (c.width * 2)))) 0 0 0 lines
  rw [herase]
  show conCursor _ c.x (if wrapInt (c.y + lines) > c.height - 1 then c.height - 1
    else wrapInt (c.y + lines)) = _
  rw [hclamp]

/-- Scrolling up moves the cursor up with the content, to the first row at
most. -/
theorem conScroll_up (hc : c.Framed) (h₀ : 0 ≤ c.y) (hy : c.y ≤ c.height) {offset : ℤ}
    (h₁ : 0 < offset) :
    ∃ m t ny, c.conScroll offset = { c with memory := m, touched := t, y := ny } ∧
      (∀ a ∈ t, a ∈ c.touched ∨ a ∈ c.screen) ∧ 0 ≤ ny ∧ ny < c.height := by
  obtain ⟨hw, -, hh₁, hh₂, -⟩ := hc
  rw [conScroll_up_eq hh₂ hh₁ h₀ hy h₁]
  obtain ⟨m, t, hrows, ht⟩ :=
    c.rowsUp_eq (show 0 ≤ c.width by omega) (show 0 ≤ min offset c.height by omega) (by omega)
  rw [hrows, conCursor_eq]
  exact ⟨m, t, _, rfl, ht, by omega, by omega⟩

/-- Scrolling down moves the cursor down with the content, unless the row does
not fit an `int`. -/
theorem conScroll_down (hc : c.Framed) (h₀ : 0 ≤ c.y) (hy : c.y < c.height) {offset : ℤ}
    (h₁ : -2 ^ 31 < offset) (h₂ : offset < 0) :
    ∃ m t ny, c.conScroll offset = { c with memory := m, touched := t, y := ny } ∧
      (∀ a ∈ t, a ∈ c.touched ∨ a ∈ c.screen) ∧ ny < c.height ∧
        (0 ≤ ny ↔ c.y + min (-offset) c.height < 2 ^ 31) := by
  obtain ⟨hw, -, hh₁, hh₂, -⟩ := hc
  rw [conScroll_down_eq hh₂ hh₁ h₁ h₂]
  obtain ⟨m, t, hrows, ht⟩ :=
    c.rowsDown_eq (show 0 ≤ c.width by omega) (show 0 ≤ min (-offset) c.height by omega)
      (by omega)
  rw [hrows, conCursor_eq]
  refine ⟨m, t, _, rfl, ht, by omega, ?_⟩
  rcases lt_or_ge (c.y + min (-offset) c.height) (2 ^ 31) with hfits | hover
  · rw [wrapInt_of_fits (by omega) hfits]
    omega
  · rw [wrapInt_of_over hover (by omega)]
    omega

/-- Scrolling by the least `int` moves the cursor above the screen. -/
theorem conScroll_lowest (hh₁ : 1 ≤ c.height) (hh₂ : c.height < 2 ^ 31) (h₀ : 0 ≤ c.y)
    (hy : c.y < c.height) : (c.conScroll (-2 ^ 31)).y < 0 := by
  have habs : cAbs (-2 ^ 31) = -2 ^ 31 := by decide
  have hlines : cMin (-2 ^ 31) c.height = -2 ^ 31 := if_pos (by omega)
  have hrow : wrapInt (c.y + -2 ^ 31) = c.y + -2 ^ 31 := wrapInt_of_fits (by omega) (by omega)
  unfold conScroll
  simp only [habs, hlines]
  rw [if_pos (by decide)]
  obtain ⟨m, t, herase, -⟩ := conErase_eq
    (c.move (c.conAt 0 (-2 ^ 31)) (c.conAt 0 0)
      (wrapInt (wrapInt (c.height - -2 ^ 31) * wrapInt (c.width * 2))))
    0 0 0 (wrapInt (c.height - wrapInt (c.height - -2 ^ 31)))
  rw [herase, conCursor_eq]
  show (if wrapInt (c.y + -2 ^ 31) > c.height - 1 then c.height - 1
    else wrapInt (c.y + -2 ^ 31)) < 0
  rw [hrow, if_neg (by omega)]
  omega

/-- From the label `adjust` on, the cursor goes to the next cell, and the screen
scrolls when there is none. -/
theorem adjust_eq (hc : c.Framed) (hx₀ : -2 ^ 31 ≤ c.x) (hx : c.x < 2 ^ 31 - 1) (h₀ : 0 ≤ c.y)
    (hy : c.y < c.height) :
    ∃ m t nx ny, c.adjust = { c with memory := m, touched := t, x := nx, y := ny } ∧
      (∀ a ∈ t, a ∈ c.touched ∨ a ∈ c.screen) ∧ nx < c.width ∧ (0 ≤ nx ↔ -1 ≤ c.x) ∧
        0 ≤ ny ∧ ny < c.height := by
  have hw := hc.width_pos
  have hh := hc.height_lt
  have hnx : wrapInt (c.x + 1) = c.x + 1 := wrapInt_of_fits (by omega) (by omega)
  have hny : wrapInt (c.y + 1) = c.y + 1 := wrapInt_of_fits (by omega) (by omega)
  unfold adjust
  simp only [hnx, hny, conCursor_eq]
  rcases lt_or_ge (c.x + 1) c.width with hroom | hlast
  · rw [if_neg (not_le.mpr hroom), if_neg (not_le.mpr hy)]
    exact ⟨c.memory, c.touched, c.x + 1, c.y, rfl, fun _ ha => .inl ha, hroom, by omega, h₀, hy⟩
  · rw [if_pos hlast]
    rcases lt_or_ge (c.y + 1) c.height with hbelow | hbottom
    · rw [if_neg (not_le.mpr hbelow)]
      exact ⟨c.memory, c.touched, 0, c.y + 1, rfl, fun _ ha => .inl ha, by omega, by omega,
        by omega, hbelow⟩
    · rw [if_pos hbottom]
      have hready : ({ c with x := 0, y := c.y + 1 } : Console).Framed := { hc with }
      obtain ⟨m, t, ny, hscroll, ht, hny₀, hny₁⟩ :=
        conScroll_up hready (show 0 ≤ c.y + 1 by omega) (show c.y + 1 ≤ c.height by omega)
          (show (0 : ℤ) < 1 by decide)
      exact ⟨m, t, 0, ny, hscroll, ht, by omega, by omega, hny₀, hny₁⟩

/-! ## The parameter of a control sequence -/

theorem wrapInt_digit (n d : ℤ) : wrapInt (wrapInt n * 10 + d) = wrapInt (n * 10 + d) := by
  have hn := wrapInt_emod n
  apply wrapInt_congr
  omega

theorem conNextChar_of_lt {sequence : List UInt8} {head : ℕ} (h : head < sequence.length) :
    conNextChar sequence head (sequence.length - 1) = (sequence[head], head + 1) := by
  have hin : ¬ head > sequence.length - 1 := by omega
  rw [conNextChar, if_neg hin, List.getD_eq_getElem _ _ h]

theorem conNextChar_of_ge {sequence : List UInt8} {head : ℕ} (h : sequence.length ≤ head) :
    (conNextChar sequence head (sequence.length - 1)).1 = 0 := by
  unfold conNextChar
  split
  · rfl
  · exact List.getD_eq_default _ _ h

/-- The parameter is read digit by digit, each step modulo `2 ^ 32`. -/
theorem nextIntLoop_eq (sequence : List UInt8) (fallback : ℤ) :
    ∀ (fuel : ℕ) (first : Bool) (n : ℤ) (head : ℕ), sequence.length < fuel + head → 0 < fuel →
      (nextIntLoop sequence (sequence.length - 1) fallback fuel first (wrapInt n) head).1 =
        if first ∧ digits (sequence.drop head) = [] then fallback
        else wrapInt ((digits (sequence.drop head)).foldl (fun n d => n * 10 + (d.toNat - 48)) n)
  | fuel + 1, first, n, head, hfuel, _ => by
      unfold nextIntLoop
      rcases lt_or_ge head sequence.length with hlt | hge
      · have hdrop : sequence.drop head = sequence[head] :: sequence.drop (head + 1) :=
          List.drop_eq_getElem_cons hlt
        rw [conNextChar_of_lt hlt, hdrop]
        rcases hd : isDigit sequence[head] with _ | _
        · have hdigits : digits (sequence[head] :: sequence.drop (head + 1)) = [] := by
            apply List.takeWhile_cons_of_neg
            rw [hd]
            decide
          simp only [hd, hdigits]
          cases first <;> rfl
        · have hdigits : digits (sequence[head] :: sequence.drop (head + 1)) =
              sequence[head] :: digits (sequence.drop (head + 1)) :=
            List.takeWhile_cons_of_pos hd
          simp only [hd, if_true, wrapInt_digit, hdigits]
          rw [nextIntLoop_eq sequence fallback fuel false _ (head + 1) (by omega) (by omega)]
          simp
      · have hnil : sequence.drop head = [] := List.drop_eq_nil_of_le hge
        have hzero : isDigit 0 = false := by decide
        simp only [conNextChar_of_ge hge, hzero, hnil]
        cases first <;> rfl

/-- `con_next_int` at the start of the parameters reads the first one. -/
theorem conNextInt_eq (sequence : List UInt8) (fallback : ℤ) :
    (conNextInt sequence 1 (sequence.length - 1) fallback).1 = parameter sequence fallback := by
  have hzero : wrapInt 0 = 0 := by decide
  have hread := nextIntLoop_eq sequence fallback (sequence.length + 1) true 0 1 (by omega) (by omega)
  rw [hzero, List.drop_one] at hread
  rw [conNextInt, hread, parameter, decimal]
  split <;> split <;> simp_all

theorem parameter_range (sequence : List UInt8) :
    -2 ^ 31 ≤ parameter sequence 1 ∧ parameter sequence 1 < 2 ^ 31 := by
  unfold parameter
  split
  · decide
  · exact wrapInt_range _

/-! ## Control sequences -/

theorem Bounded.drawn (hb : c.Bounded) {t : List ℕ}
    (ht : ∀ a ∈ t, a ∈ c.touched ∨ a ∈ c.screen) : ∀ a ∈ t, a ∈ c.screen :=
  fun a ha => (ht a ha).elim (hb.touched a) id

/-- Drawing on the screen keeps the bounds. -/
theorem Bounded.draw (hb : c.Bounded) {m : Memory} {t : List ℕ}
    (ht : ∀ a ∈ t, a ∈ c.touched ∨ a ∈ c.screen) :
    Bounded { c with memory := m, touched := t } :=
  ⟨{ hb.cursor with }, hb.drawn ht⟩

theorem Bounded.cursor_iff (hb : c.Bounded) (nx ny : ℤ) :
    (c.conCursor nx ny).Bounded ↔ (0 ≤ nx ∧ nx < c.width) ∧ 0 ≤ ny ∧ ny < c.height := by
  rw [conCursor_eq]
  constructor
  · intro h
    exact ⟨⟨h.cursor.x_nonneg, h.cursor.x_lt⟩, h.cursor.y_nonneg, h.cursor.y_lt⟩
  · rintro ⟨⟨hx₀, hx⟩, hy₀, hy⟩
    exact ⟨⟨hx₀, hx, hy₀, hy⟩, hb.touched⟩

/-- Moving towards zero stays in a range unless the distance is negative. -/
theorem back_iff {v n arg : ℤ} (h₀ : 0 ≤ v) (hv : v < n) (hn : n < 2 ^ 31)
    (h₁ : -2 ^ 31 ≤ arg) (h₂ : arg < 2 ^ 31) :
    (0 ≤ cMax (wrapInt (v - arg)) 0 ∧ cMax (wrapInt (v - arg)) 0 < n) ↔
      v - arg < n ∨ 2 ^ 31 ≤ v - arg := by
  unfold cMax
  rcases lt_or_ge (v - arg) (2 ^ 31) with hfits | hover
  · rw [wrapInt_of_fits (by omega) hfits]
    split <;> omega
  · rw [wrapInt_of_over hover (by omega)]
    split <;> omega

/-- Moving away from zero stays in a range unless the sum is negative or
overflows. -/
theorem forth_iff {v n arg : ℤ} (h₀ : 0 ≤ v) (hv : v < n) (hn : n < 2 ^ 31)
    (h₁ : -2 ^ 31 ≤ arg) (h₂ : arg < 2 ^ 31) :
    (0 ≤ cMin (wrapInt (v + arg)) (n - 1) ∧ cMin (wrapInt (v + arg)) (n - 1) < n) ↔
      0 ≤ v + arg ∧ v + arg < 2 ^ 31 := by
  unfold cMin
  rcases lt_or_ge (v + arg) (2 ^ 31) with hfits | hover
  · rw [wrapInt_of_fits (by omega) hfits]
    split <;> omega
  · rw [wrapInt_of_over hover (by omega)]
    split <;> omega

theorem clamp_range {v n : ℤ} (hn : 1 ≤ n) :
    0 ≤ clamp v 0 (n - 1) ∧ clamp v 0 (n - 1) < n := by
  unfold clamp
  split
  · omega
  · split <;> omega

theorem conScroll_bounded_iff (hc : c.Framed) (hb : c.Bounded) {offset : ℤ}
    (h₁ : -2 ^ 31 ≤ offset) (h₂ : offset < 2 ^ 31) :
    (c.conScroll offset).Bounded ↔ c.ScrollFits offset := by
  obtain ⟨⟨hx₀, hx, hy₀, hy⟩, -⟩ := id hb
  rcases lt_trichotomy offset 0 with hneg | rfl | hpos
  · rcases eq_or_lt_of_le h₁ with rfl | hlow
    · constructor
      · intro h
        exact absurd h.cursor.y_nonneg (not_le.mpr (conScroll_lowest hc.height_pos hc.height_lt hy₀ hy))
      · intro h
        exact absurd (h hneg).1 (by decide)
    · obtain ⟨m, t, ny, heq, ht, hlt, hiff⟩ := conScroll_down hc hy₀ hy hlow hneg
      rw [heq]
      constructor
      · intro h _
        exact ⟨by omega, hiff.mp h.cursor.y_nonneg⟩
      · intro h
        exact ⟨⟨hx₀, hx, hiff.mpr (h hneg).2, hlt⟩, hb.drawn ht⟩
  · have hself : c.conScroll 0 = c := rfl
    rw [hself]
    exact ⟨fun _ h => absurd h (lt_irrefl 0), fun _ => hb⟩
  · obtain ⟨m, t, ny, heq, ht, hny₀, hny⟩ := conScroll_up hc hy₀ hy.le hpos
    rw [heq]
    constructor
    · intro _ h
      exact absurd h (not_lt.mpr hpos.le)
    · intro _
      exact ⟨⟨hx₀, hx, hny₀, hny⟩, hb.drawn ht⟩

/-- Erasing between two positions of the screen, the first of them not behind
the second. -/
theorem conErase_bounded (hb : c.Bounded) {x₁ y₁ x₂ y₂ : ℤ} (h₁ : 0 ≤ x₁ + y₁ * c.width)
    (h₂ : x₁ + y₁ * c.width ≤ x₂ + y₂ * c.width) (h₃ : x₂ < c.width) (h₄ : y₂ < c.height)
    (hw : 0 ≤ c.width) : (c.conErase x₁ y₁ x₂ y₂).Bounded := by
  obtain ⟨m, t, heq, ht⟩ := conErase_eq c x₁ y₁ x₂ y₂
  have hrows : (y₂ + 1) * c.width ≤ c.height * c.width :=
    Int.mul_le_mul_of_nonneg_right h₄ hw
  have hrow : (y₂ + 1) * c.width = y₂ * c.width + c.width := by ring
  have harea : c.width * c.height = c.height * c.width := mul_comm _ _
  rw [heq]
  exact hb.draw (ht h₁ h₂ (by omega))

theorem eraseDisplay_bounded (hb : c.Bounded) (n : ℤ) :
    (c.eraseDisplay n).Bounded := by
  obtain ⟨⟨hx₀, hx, hy₀, hy⟩, -⟩ := id hb
  have hrows : c.y * c.width ≤ (c.height - 1) * c.width :=
    Int.mul_le_mul_of_nonneg_right (by omega) (by omega)
  have habove : 0 ≤ c.y * c.width := Int.mul_nonneg hy₀ (by omega)
  unfold eraseDisplay
  split
  · apply conErase_bounded hb <;> omega
  split
  · apply conErase_bounded hb <;> omega
  split
  · apply conErase_bounded hb <;> omega
  · exact hb

theorem eraseLine_bounded (hb : c.Bounded) (n : ℤ) :
    (c.eraseLine n).Bounded := by
  obtain ⟨⟨hx₀, hx, hy₀, hy⟩, -⟩ := id hb
  have habove : 0 ≤ c.y * c.width := Int.mul_nonneg hy₀ (by omega)
  unfold eraseLine
  split
  · apply conErase_bounded hb <;> omega
  split
  · apply conErase_bounded hb <;> omega
  split
  · apply conErase_bounded hb <;> omega
  · exact hb

/-- Nothing but the colours differs. -/
def Recolored (c c' : Console) : Prop := c' = { c with invert := c'.invert, attr := c'.attr }

theorem Recolored.trans {c₁ c₂ c₃ : Console} (h : Recolored c₁ c₂) (h' : Recolored c₂ c₃) :
    Recolored c₁ c₃ := by
  unfold Recolored at *
  rw [h'] at *
  rw [h]

theorem Recolored.ite {p : Prop} [Decidable p] {c₁ c₂ c₃ : Console} (h : Recolored c₁ c₂)
    (h' : Recolored c₁ c₃) : Recolored c₁ (if p then c₂ else c₃) := by
  split
  · exact h
  · exact h'

theorem conSrgApply_recolored (c : Console) (code : ℤ) : Recolored c (c.conSrgApply code) := by
  unfold conSrgApply
  repeat' apply Recolored.ite
  all_goals exact rfl

theorem sgrLoop_recolored (last : ℕ) :
    ∀ (fuel : ℕ) (first : Bool) (head : ℕ) (c : Console),
      Recolored c (sgrLoop last fuel first head c).2
  | 0, _, _, _ => rfl
  | fuel + 1, first, head, c => by
      unfold sgrLoop
      split
      · simp only []
        split
        · exact rfl
        · apply (conSrgApply_recolored c _).trans
          apply sgrLoop_recolored
      · exact rfl

theorem conSgrExecute_recolored (c : Console) (head last : ℕ) :
    Recolored c (c.conSgrExecute head last) := by
  have hloop := sgrLoop_recolored last last true head c
  unfold conSgrExecute
  apply Recolored.ite
  · exact hloop.trans (conSrgApply_recolored _ 0)
  · exact hloop

theorem harmlessParameter_of_other {arg : ℤ} (h₁ : code ≠ ansiCsiCuu) (h₂ : code ≠ ansiCsiCud)
    (h₃ : code ≠ ansiCsiCuf) (h₄ : code ≠ ansiCsiCub) (h₅ : code ≠ ansiCsiCnl)
    (h₆ : code ≠ ansiCsiSu) (h₇ : code ≠ ansiCsiSd) : c.HarmlessParameter code arg :=
  ⟨fun h => absurd h h₁, fun h => absurd h (not_or.mpr ⟨h₂, h₅⟩), fun h => absurd h h₃,
    fun h => absurd h h₄, fun h => absurd h h₆, fun h => absurd h h₇⟩

/-- A control sequence keeps the bounds exactly when its parameter is
harmless. -/
theorem conCsiExecute_bounded_iff (hc : c.Framed) (hb : c.Bounded) :
    (c.conCsiExecute 1 (c.sequence.length - 1)).Bounded ↔
      c.HarmlessParameter (c.sequence.getD (c.sequence.length - 1) 0) (parameter c.sequence 1) := by
  obtain ⟨⟨hx₀, hx, hy₀, hy⟩, -⟩ := id hb
  obtain ⟨harg₁, harg₂⟩ := parameter_range c.sequence
  unfold conCsiExecute
  simp only [conNextInt_eq]
  generalize parameter c.sequence 1 = arg at harg₁ harg₂ ⊢
  generalize c.sequence.getD (c.sequence.length - 1) 0 = code
  by_cases h₁ : code = ansiCsiCuu
  · rw [if_pos h₁, hb.cursor_iff, back_iff hy₀ hy hc.height_lt harg₁ harg₂, h₁]
    simp +decide [harmlessParameter_iff, hx₀, hx]
  rw [if_neg h₁]
  by_cases h₂ : code = ansiCsiCud
  · rw [if_pos h₂, hb.cursor_iff, forth_iff hy₀ hy hc.height_lt harg₁ harg₂, h₂]
    simp +decide [harmlessParameter_iff, hx₀, hx]
  rw [if_neg h₂]
  by_cases h₃ : code = ansiCsiCuf
  · rw [if_pos h₃, hb.cursor_iff, forth_iff hx₀ hx hc.width_lt harg₁ harg₂, h₃]
    simp +decide [harmlessParameter_iff, hy₀, hy]
  rw [if_neg h₃]
  by_cases h₄ : code = ansiCsiCub
  · rw [if_pos h₄, hb.cursor_iff, back_iff hx₀ hx hc.width_lt harg₁ harg₂, h₄]
    simp +decide [harmlessParameter_iff, hy₀, hy]
  rw [if_neg h₄]
  by_cases h₅ : code = ansiCsiCnl
  · have hw := hc.width_pos
    rw [if_pos h₅, hb.cursor_iff, forth_iff hy₀ hy hc.height_lt harg₁ harg₂, h₅]
    simp +decide [harmlessParameter_iff]
    omega
  rw [if_neg h₅, if_neg h₅]
  -- Of the remaining sequences only the scrolling ones look at the parameter.
  by_cases h₆ : code = ansiCsiCup ∨ code = ansiCsiHvp
  · rw [if_pos h₆, hb.cursor_iff]
    apply iff_of_true ⟨clamp_range hc.width_pos, clamp_range hc.height_pos⟩
    rcases h₆ with rfl | rfl
    all_goals apply harmlessParameter_of_other <;> decide
  rw [if_neg h₆]
  by_cases h₇ : code = ansiCsiEd
  · rw [if_pos h₇, h₇]
    apply iff_of_true (eraseDisplay_bounded hb _)
    apply harmlessParameter_of_other <;> decide
  rw [if_neg h₇]
  by_cases h₈ : code = ansiCsiEl
  · rw [if_pos h₈, h₈]
    apply iff_of_true (eraseLine_bounded hb _)
    apply harmlessParameter_of_other <;> decide
  rw [if_neg h₈]
  by_cases h₉ : code = ansiCsiSu
  · rw [if_pos h₉, conScroll_bounded_iff hc hb harg₁ harg₂, h₉]
    simp +decide [harmlessParameter_iff]
  rw [if_neg h₉]
  by_cases h₁₀ : code = ansiCsiSd
  · obtain ⟨hneg₁, hneg₂⟩ := wrapInt_range (-arg)
    rw [if_pos h₁₀, conScroll_bounded_iff hc hb hneg₁ hneg₂, h₁₀]
    simp +decide [harmlessParameter_iff]
  rw [if_neg h₁₀]
  refine iff_of_true ?_ (harmlessParameter_of_other h₁ h₂ h₃ h₄ h₅ h₉ h₁₀)
  split
  · exact ⟨{ hb.cursor with }, hb.touched⟩
  split
  · apply (hb.cursor_iff _ _).mpr
    exact ⟨⟨hc.sx_nonneg, hc.sx_lt⟩, hc.sy_nonneg, hc.sy_lt⟩
  split
  · rw [conSgrExecute_recolored c 1 (c.sequence.length - 1)]
    exact ⟨{ hb.cursor with }, hb.touched⟩
  · exact hb

end Console

end Neos
