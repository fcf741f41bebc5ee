import Neos.Console.Scrolling

/-!
# Plain text on a reference terminal

Printable characters, line feeds, carriage returns and backspaces have an
obvious meaning on a terminal that knows nothing of addresses.  On a screen that
can be addressed, `con_write` shows exactly what that terminal does.
-/

namespace Neos

open BitMemory

namespace Console

/-! ## The reference terminal -/

/-- A grid of cells, a cursor, and the attribute characters are printed with. -/
structure Terminal where
  width : ℤ
  height : ℤ
  x : ℤ
  y : ℤ
  attr : UInt8
  cell : ℤ → ℤ → Cell

namespace Terminal

/-- All rows move up by one; the top row is lost and the bottom row is blank. -/
def shiftUp (t : Terminal) : Terminal :=
  { t with cell := fun x y => if y + 1 < t.height then t.cell x (y + 1) else blankCell }

/-- Go to the beginning of the next row, which is made room for below the last
one. -/
def nextRow (t : Terminal) : Terminal :=
  if t.y + 1 < t.height then { t with x := 0, y := t.y + 1 } else { t.shiftUp with x := 0 }

/-- Go to the next cell. -/
def advance (t : Terminal) : Terminal :=
  if t.x + 1 < t.width then { t with x := t.x + 1 } else t.nextRow

/-- Store a character at the cursor. -/
def print (t : Terminal) (code : UInt8) : Terminal :=
  { t with cell := fun x y => if x = t.x ∧ y = t.y then ⟨code, t.attr⟩ else t.cell x y }

/-- What a byte of plain text does. -/
def feed (t : Terminal) (code : UInt8) : Terminal :=
  if code = ansiBackspace then if t.x = 0 then t else { t with x := t.x - 1 }
  else if code = ansiCarriageReturn then { t with x := 0 }
  else if code = ansiLineFeed then t.nextRow
  else (t.print code).advance

/-- The bytes fed one after the other. -/
def feedAll (t : Terminal) (bytes : List UInt8) : Terminal := bytes.foldl feed t

/-- Two terminals look alike: the same size, cursor and attribute, and the same
cells on the screen. -/
structure Alike (t t' : Terminal) : Prop where
  width : t.width = t'.width
  height : t.height = t'.height
  x : t.x = t'.x
  y : t.y = t'.y
  attr : t.attr = t'.attr
  cell : ∀ x y, 0 ≤ x → x < t.width → 0 ≤ y → y < t.height → t.cell x y = t'.cell x y

theorem Alike.refl (t : Terminal) : Alike t t :=
  ⟨rfl, rfl, rfl, rfl, rfl, fun _ _ _ _ _ _ => rfl⟩

theorem Alike.trans {t₁ t₂ t₃ : Terminal} (h : Alike t₁ t₂) (h' : Alike t₂ t₃) :
    Alike t₁ t₃ := by
  refine ⟨h.width.trans h'.width, h.height.trans h'.height, h.x.trans h'.x, h.y.trans h'.y,
    h.attr.trans h'.attr, ?_⟩
  intro x y hx₀ hx hy₀ hy
  have hx' := hx
  have hy' := hy
  rw [h.width] at hx'
  rw [h.height] at hy'
  rw [h.cell x y hx₀ hx hy₀ hy, h'.cell x y hx₀ hx' hy₀ hy']

theorem Alike.nextRow {t t' : Terminal} (h : Alike t t') : Alike t.nextRow t'.nextRow := by
  unfold Terminal.nextRow
  by_cases hroom : t.y + 1 < t.height
  · rw [if_pos hroom, if_pos (by rwa [← h.y, ← h.height])]
    exact { h with x := rfl, y := congrArg (· + 1) h.y }
  · rw [if_neg hroom, if_neg (by rwa [← h.y, ← h.height])]
    refine { h with x := rfl, cell := ?_ }
    intro x y hx₀ hx hy₀ hy'
    show ite _ _ _ = ite _ _ _
    rw [← h.height]
    split
    · rename_i hnext
      exact h.cell x (y + 1) hx₀ hx (by omega) hnext
    · rfl

theorem Alike.advance {t t' : Terminal} (h : Alike t t') : Alike t.advance t'.advance := by
  unfold Terminal.advance
  by_cases hroom : t.x + 1 < t.width
  · rw [if_pos hroom, if_pos (by rwa [← h.x, ← h.width])]
    exact { h with x := congrArg (· + 1) h.x }
  · rw [if_neg hroom, if_neg (by rwa [← h.x, ← h.width])]
    exact h.nextRow

theorem Alike.print {t t' : Terminal} (h : Alike t t') (code : UInt8) :
    Alike (t.print code) (t'.print code) := by
  refine { h with cell := ?_ }
  intro x y hx₀ hx hy₀ hy
  show ite _ _ _ = ite _ _ _
  rw [← h.x, ← h.y, ← h.attr]
  split
  · rfl
  · exact h.cell x y hx₀ hx hy₀ hy

/-- Terminals that look alike go on looking alike. -/
theorem Alike.feed {t t' : Terminal} (h : Alike t t') (code : UInt8) :
    Alike (t.feed code) (t'.feed code) := by
  unfold Terminal.feed
  split
  · by_cases hfirst : t.x = 0
    · rw [if_pos hfirst, if_pos (h.x.symm.trans hfirst)]
      exact h
    · rw [if_neg hfirst, if_neg (fun hx => hfirst (h.x.trans hx))]
      exact { h with x := congrArg (· - 1) h.x }
  split
  · exact { h with x := rfl }
  split
  · exact h.nextRow
  · exact (h.print code).advance

/-- The cursor of a terminal is on its screen. -/
structure Inside (t : Terminal) : Prop where
  x_nonneg : 0 ≤ t.x
  x_lt : t.x < t.width
  y_nonneg : 0 ≤ t.y
  y_lt : t.y < t.height

theorem Inside.nextRow {t : Terminal} (h : t.Inside) : t.nextRow.Inside := by
  obtain ⟨hx₀, hx, hy₀, hy⟩ := h
  unfold Terminal.nextRow
  split
  · rename_i hroom
    exact ⟨le_refl 0, show 0 < t.width by omega, show 0 ≤ t.y + 1 by omega, hroom⟩
  · exact ⟨le_refl 0, show 0 < t.width by omega, hy₀, hy⟩

/-- The cursor never leaves the screen of the reference terminal. -/
theorem Inside.feed {t : Terminal} (h : t.Inside) (code : UInt8) : (t.feed code).Inside := by
  obtain ⟨hx₀, hx, hy₀, hy⟩ := id h
  unfold Terminal.feed
  split
  · split
    · exact h
    · exact ⟨show 0 ≤ t.x - 1 by omega, show t.x - 1 < t.width by omega, hy₀, hy⟩
  split
  · exact ⟨le_refl 0, show 0 < t.width by omega, hy₀, hy⟩
  split
  · exact h.nextRow
  · unfold Terminal.advance
    split
    · rename_i hroom
      exact ⟨show 0 ≤ t.x + 1 by omega, hroom, hy₀, hy⟩
    · exact Inside.nextRow ⟨hx₀, hx, hy₀, hy⟩

end Terminal

/-- The bytes of plain text: printable ASCII characters, line feed, carriage
return and backspace. -/
def Plain (code : UInt8) : Prop :=
  (0x20 ≤ code ∧ code ≤ 0x7E) ∨ code = ansiLineFeed ∨ code = ansiCarriageReturn ∨
    code = ansiBackspace

instance (code : UInt8) : Decidable (Plain code) := inferInstanceAs (Decidable (_ ∨ _))

/-- What the console shows. -/
def terminal (c : Console) : Terminal where
  width := c.width
  height := c.height
  x := c.x
  y := c.y
  attr := c.conAttr
  cell x y := ⟨c.memory (c.conAt x y), c.memory (wrap (c.conAt x y + 1))⟩

/-- The screen ends below the last address, and a `long` counts the bytes of the
rows that are moved when the screen scrolls. -/
structure Addressable (c : Console) : Prop where
  ends : 0xB8000 + 2 * (c.width * c.height) < 2 ^ 32
  moves : 2 * (c.width * (c.height - 1)) < 2 ^ 31

/-! ## Rows and cells -/

variable {c : Console} {code : UInt8}

/-- The dimensions of an addressable screen are positive `int`s. -/
structure Sized (c : Console) : Prop extends Addressable c where
  width_pos : 1 ≤ c.width
  height_pos : 1 ≤ c.height

theorem Sized.of_dimensions {c' : Console} (hc : c.Sized) (hw : c'.width = c.width)
    (hh : c'.height = c.height) : c'.Sized where
  ends := by rw [hw, hh]; exact hc.ends
  moves := by rw [hw, hh]; exact hc.moves
  width_pos := hw ▸ hc.width_pos
  height_pos := hh ▸ hc.height_pos

theorem Sized.placed (hc : c.Sized) : c.Placed := ⟨hc.width_pos, hc.height_pos, hc.ends⟩

/-! ## Scrolling -/

/-- A screen whose rows above the last one can be counted can be scrolled by one
row. -/
theorem Sized.conScroll_one (hc : c.Sized) (hy : c.y = c.height) :
    Scrolled c (c.conScroll 1) 1 := by
  have hh := hc.height_pos
  have hmoves := hc.moves
  have hone : |(1 : ℤ)| = 1 := by decide
  have hswap : (c.height - 1) * c.width = c.width * (c.height - 1) := mul_comm _ _
  apply (hc.placed.conScroll_up_iff (by omega) (by omega) one_pos).mpr
  refine ⟨fun h => absurd h (by decide), ?_⟩
  rw [hone, hswap]
  intro hover
  omega

/-- Scrolling keeps the colours characters are printed in. -/
theorem conScroll_conAttr (c : Console) (offset : ℤ) :
    (c.conScroll offset).conAttr = c.conAttr := by
  have hdrawn : ∀ dst src bytes x₁ y₁ x₂ y₂ nx ny,
      (((c.move dst src bytes).conErase x₁ y₁ x₂ y₂).conCursor nx ny).conAttr = c.conAttr := by
    intro dst src bytes x₁ y₁ x₂ y₂ nx ny
    obtain ⟨m, t, herase, -⟩ := conErase_eq (c.move dst src bytes) x₁ y₁ x₂ y₂
    rw [conCursor_eq, herase]
    rfl
  rcases lt_trichotomy offset 0 with hneg | rfl | hpos
  · have hsign : sgn offset = -1 := if_pos hneg
    unfold conScroll
    simp only [hsign, if_true]
    apply hdrawn
  · rfl
  · have hsign : sgn offset = 1 := by
      rw [sgn, if_neg (by omega), if_pos hpos]
    have hother : ¬ (1 : ℤ) = -1 := by decide
    unfold conScroll
    simp only [hsign, hother, if_true, if_false]
    apply hdrawn

/-- The screen after scrolling is the screen before, one row up. -/
theorem conScroll_alike (hc : c.Sized) (hy : c.y = c.height) :
    Terminal.Alike (c.conScroll 1).terminal { c.terminal.shiftUp with y := c.height - 1 } := by
  have hh := hc.height_pos
  have hscrolled := hc.conScroll_one hy
  have hkept := conScroll_kept c 1
  have hrow := hscrolled.row
  refine ⟨hkept.width, hkept.height, hscrolled.column, ?_, conScroll_conAttr c 1, ?_⟩
  · show (c.conScroll 1).y = c.height - 1
    omega
  · intro x y hx₀ hx hy₀ hy'
    change x < (c.conScroll 1).width at hx
    change y < (c.conScroll 1).height at hy'
    rw [hkept.width] at hx
    rw [hkept.height] at hy'
    show (c.conScroll 1).cellAt x y = if y + 1 < c.height then c.cellAt x (y + 1) else blankCell
    split
    · rename_i hnext
      exact hscrolled.moved x y ⟨hx₀, hx, hy₀, hy'⟩ ⟨hx₀, hx, by omega, hnext⟩
    · rename_i hlast
      exact hscrolled.blanked x y ⟨hx₀, hx, hy₀, hy'⟩ (fun h => hlast h.y_lt)

/-! ## One byte of plain text -/

theorem inside_terminal_iff : c.terminal.Inside ↔ c.OnScreen :=
  ⟨fun h => ⟨h.x_nonneg, h.x_lt, h.y_nonneg, h.y_lt⟩,
    fun h => ⟨h.x_nonneg, h.x_lt, h.y_nonneg, h.y_lt⟩⟩

/-- The next row, scrolled into sight if it is below the screen. -/
theorem nextRow_alike (hc : c.Sized) (hs : c.OnScreen) :
    Terminal.Alike (if c.y + 1 ≥ c.height then ({ c with x := 0, y := c.y + 1 }).conScroll 1
        else { c with x := 0, y := c.y + 1 }).terminal c.terminal.nextRow := by
  unfold Terminal.nextRow
  have hy := hs.y_lt
  by_cases hroom : c.y + 1 < c.height
  · rw [if_neg (by omega), if_pos (show c.terminal.y + 1 < c.terminal.height from hroom)]
    exact .refl _
  · rw [if_pos (by omega), if_neg (show ¬ c.terminal.y + 1 < c.terminal.height from hroom)]
    have hscrolled := conScroll_alike (c := { c with x := 0, y := c.y + 1 })
      (hc.of_dimensions rfl rfl) (show c.y + 1 = c.height by omega)
    refine hscrolled.trans { Terminal.Alike.refl _ with y := ?_, cell := ?_ }
    · show c.height - 1 = c.y
      omega
    · intro x y _ _ _ _
      rfl

/-- The end of a character moves the cursor like the terminal does. -/
theorem adjust_alike (hc : c.Sized) (hs : c.OnScreen) :
    Terminal.Alike c.adjust.terminal c.terminal.advance := by
  have hx := hs.x_lt
  have hx₀ := hs.x_nonneg
  have hy := hs.y_lt
  have hy₀ := hs.y_nonneg
  have hw := hc.placed.width_lt
  have hh := hc.placed.height_lt
  have hnx : wrapInt (c.x + 1) = c.x + 1 := wrapInt_of_fits (by omega) (by omega)
  have hny : wrapInt (c.y + 1) = c.y + 1 := wrapInt_of_fits (by omega) (by omega)
  unfold adjust Terminal.advance
  simp only [hnx, hny, conCursor_eq]
  by_cases hroom : c.x + 1 < c.width
  · rw [if_pos (show c.terminal.x + 1 < c.terminal.width from hroom)]
    simp only [ge_iff_le, not_le.mpr hroom, not_le.mpr hy, if_false]
    exact .refl _
  · rw [if_neg (show ¬ c.terminal.x + 1 < c.terminal.width from hroom)]
    simp only [ge_iff_le, not_lt.mp hroom, if_true]
    exact nextRow_alike hc hs

/-- Storing a character changes the cell at the cursor only. -/
theorem print_alike (hc : c.Sized) (hs : c.OnScreen) (code : UInt8) :
    Terminal.Alike
      ((c.poke (c.conAt c.x c.y) code).poke (c.conAt c.x c.y + 1) c.conAttr).terminal
      (c.terminal.print code) := by
  refine ⟨rfl, rfl, rfl, rfl, rfl, ?_⟩
  intro x y hx₀ hx hy₀ hy
  change x < c.width at hx
  change y < c.height at hy
  have hends := hc.ends
  obtain ⟨hcell, hin⟩ := hc.placed.conAt_cell hx₀ hx hy₀ hy
  obtain ⟨hhere, hin'⟩ := hc.placed.conAt_cell hs.x_nonneg hs.x_lt hs.y_nonneg hs.y_lt
  have hx₀' := hs.x_nonneg
  have hwrap : wrap (c.conAt x y + 1) = c.conAt x y + 1 := wrap_of_lt (by omega)
  have hwrap' : wrap (c.conAt c.x c.y + 1) = c.conAt c.x c.y + 1 := wrap_of_lt (by omega)
  have hwrap₀ : wrap (c.conAt c.x c.y) = c.conAt c.x c.y := wrap_of_lt (by omega)
  show Cell.mk (store (store c.memory (c.conAt c.x c.y) code.toNat) (c.conAt c.x c.y + 1)
      c.conAttr.toNat (c.conAt x y))
    (store (store c.memory (c.conAt c.x c.y) code.toNat) (c.conAt c.x c.y + 1)
      c.conAttr.toNat (wrap (c.conAt x y + 1))) =
    if x = c.x ∧ y = c.y then ⟨code, c.conAttr⟩
    else ⟨c.memory (c.conAt x y), c.memory (wrap (c.conAt x y + 1))⟩
  simp only [store, hwrap, hwrap', hwrap₀, UInt8.ofNat_toNat]
  by_cases hsame : x = c.x ∧ y = c.y
  · obtain ⟨rfl, rfl⟩ := hsame
    rw [if_neg (by omega), if_pos rfl, if_pos rfl, if_pos ⟨rfl, rfl⟩]
  · have hother : c.conAt x y ≠ c.conAt c.x c.y := by
      intro heq
      exact hsame (cell_number_inj hx₀ hx hs.x_nonneg hs.x_lt (by omega))
    rw [if_neg hsame, if_neg (by omega), if_neg hother, if_neg (by omega), if_neg (by omega)]

theorem conLexerInitial_print (h₁ : 0x20 ≤ code) (h₂ : code ≤ 0x7E) :
    c.conLexerInitial code =
      ((c.poke (c.conAt c.x c.y) code).poke (c.conAt c.x c.y + 1) c.conAttr).adjust := by
  have hne : ∀ other : UInt8, other < 0x20 ∨ 0x7E < other → code ≠ other := by
    rintro other hother rfl
    rcases hother with hlow | hhigh
    · exact absurd h₁ (UInt8.not_le.mpr hlow)
    · exact absurd h₂ (UInt8.not_le.mpr hhigh)
  unfold conLexerInitial
  rw [if_neg (hne _ (.inl (by decide))), if_neg (hne _ (.inl (by decide))),
    if_neg (hne _ (.inl (by decide))), if_neg (hne _ (.inl (by decide))),
    if_neg (fun h => hne ansiEscCsi (.inr (by decide)) h.2),
    if_neg (fun h => h.2.elim (hne ansiEscDcs (.inr (by decide)))
      (hne ansiEscOsc (.inr (by decide)))),
    if_neg (hne _ (.inl (by decide)))]

/-- A byte of plain text does to the screen what the reference terminal does. -/
theorem conLexerInitial_alike (hc : c.Sized) (hs : c.OnScreen) (hcode : Plain code) :
    Terminal.Alike (c.conLexerInitial code).terminal (c.terminal.feed code) ∧
      Kept c (c.conLexerInitial code) := by
  have hy₀ := hs.y_nonneg
  have hy := hs.y_lt
  have hh := hc.placed.height_lt
  have hny : wrapInt (c.y + 1) = c.y + 1 := wrapInt_of_fits (by omega) (by omega)
  rcases hcode with ⟨h₁, h₂⟩ | rfl | rfl | rfl
  · have hfeed : c.terminal.feed code = (c.terminal.print code).advance := by
      have hne : ∀ other : UInt8, other < 0x20 → code ≠ other := by
        rintro other hother rfl
        exact absurd h₁ (UInt8.not_le.mpr hother)
      unfold Terminal.feed
      rw [if_neg (hne _ (by decide)), if_neg (hne _ (by decide)), if_neg (hne _ (by decide))]
    rw [conLexerInitial_print h₁ h₂, hfeed]
    have hprint := print_alike hc hs code
    have hkept : Kept c ((c.poke (c.conAt c.x c.y) code).poke (c.conAt c.x c.y + 1) c.conAttr) :=
      ⟨rfl, rfl, rfl, rfl, rfl⟩
    have hstill : OnScreen
        ((c.poke (c.conAt c.x c.y) code).poke (c.conAt c.x c.y + 1) c.conAttr) :=
      ⟨hs.x_nonneg, hs.x_lt, hs.y_nonneg, hs.y_lt⟩
    exact ⟨(adjust_alike (hc.of_dimensions hkept.width hkept.height) hstill).trans hprint.advance,
      hkept.trans (adjust_kept _)⟩
  · have hfeed : c.terminal.feed ansiLineFeed = c.terminal.nextRow := by
      unfold Terminal.feed
      rw [if_neg (by decide), if_neg (by decide), if_pos rfl]
    rw [hfeed]
    unfold conLexerInitial
    rw [if_neg (by decide), if_neg (by decide), if_pos rfl]
    constructor
    · simp only [hny, conCursor_eq]
      exact nextRow_alike hc hs
    · exact .ite ((conCursor_kept _ _ _).trans (conScroll_kept _ _)) (conCursor_kept _ _ _)
  · have hfeed : c.terminal.feed ansiCarriageReturn = { c.terminal with x := 0 } := by
      unfold Terminal.feed
      rw [if_neg (by decide), if_pos rfl]
    rw [hfeed]
    unfold conLexerInitial
    rw [if_neg (by decide), if_pos rfl]
    refine ⟨?_, conCursor_kept _ _ _⟩
    rw [conCursor_eq]
    exact .refl _
  · unfold conLexerInitial Terminal.feed
    rw [if_pos rfl, if_pos rfl]
    refine ⟨?_, .ite (conCursor_kept _ _ _) (.refl c)⟩
    have hx₀ := hs.x_nonneg
    by_cases hfirst : c.x = 0
    · rw [if_neg (by omega), if_pos (show c.terminal.x = 0 from hfirst)]
      exact .refl _
    · rw [if_pos (by omega), if_neg (show ¬ c.terminal.x = 0 from hfirst), conCursor_eq]
      exact .refl _

/-! ## Plain text -/

theorem conWrite_alike (hc : c.Sized) (hs : c.OnScreen) (hlexer : c.outputLexer = .initial)
    (hcode : Plain code) :
    Terminal.Alike (c.conWrite code).terminal (c.terminal.feed code) ∧
      (c.conWrite code).Sized ∧ (c.conWrite code).OnScreen ∧
      (c.conWrite code).outputLexer = .initial := by
  obtain ⟨halike, hkept⟩ := conLexerInitial_alike hc hs hcode
  have hwrite : c.conWrite code = c.conLexerInitial code := by
    unfold conWrite
    rw [hlexer]
  rw [hwrite]
  refine ⟨halike, hc.of_dimensions hkept.width hkept.height, ?_, ?_⟩
  · obtain ⟨hx₀, hx, hy₀, hy⟩ := (inside_terminal_iff.mpr hs).feed code
    apply inside_terminal_iff.mp
    rw [← halike.x] at hx₀ hx
    rw [← halike.y] at hy₀ hy
    rw [← halike.width] at hx
    rw [← halike.height] at hy
    exact ⟨hx₀, hx, hy₀, hy⟩
  · rw [hkept.outputLexer, hlexer]

/-- Plain text of any length leaves an addressable screen as the reference
terminal leaves it. -/
theorem writeAll_alike (bytes : List UInt8) (c : Console) (hc : c.Addressable) (hs : c.OnScreen)
    (hlexer : c.outputLexer = .initial) (hbytes : ∀ code ∈ bytes, Plain code) :
    Terminal.Alike (c.writeAll bytes).terminal (c.terminal.feedAll bytes) := by
  have hsized : c.Sized :=
    { hc with
      width_pos := lt_of_le_of_lt hs.x_nonneg hs.x_lt
      height_pos := lt_of_le_of_lt hs.y_nonneg hs.y_lt }
  suffices hrun : ∀ (bytes : List UInt8) (c : Console) (t : Terminal), c.Sized → c.OnScreen →
      c.outputLexer = .initial → (∀ code ∈ bytes, Plain code) → Terminal.Alike c.terminal t →
        Terminal.Alike (c.writeAll bytes).terminal (t.feedAll bytes) from
    hrun bytes c c.terminal hsized hs hlexer hbytes (.refl _)
  intro bytes
  induction bytes with
  | nil => exact fun c t _ _ _ _ h => h
  | cons code bytes ih =>
      intro c t hc hs hlexer hbytes h
      obtain ⟨halike, hc', hs', hlexer'⟩ :=
        conWrite_alike hc hs hlexer (hbytes code List.mem_cons_self)
      exact ih (c.conWrite code) (t.feed code) hc' hs' hlexer'
        (fun other hother => hbytes other (List.mem_cons_of_mem _ hother))
        (halike.trans (h.feed code))

/-- A screen of three columns and two rows, on which text wraps, goes back and
scrolls. -/
theorem writeAll_alike_small :
    Terminal.Alike ((blank.conInit 3 2).writeAll [65, 66, 67, 68, 8, 10, 69, 13]).terminal
      ((blank.conInit 3 2).terminal.feedAll [65, 66, 67, 68, 8, 10, 69, 13]) :=
  writeAll_alike _ (blank.conInit 3 2) ⟨by decide +kernel, by decide +kernel⟩
    ⟨by decide +kernel, by decide +kernel, by decide +kernel, by decide +kernel⟩
    (by decide +kernel) (by decide +kernel)

/-- On one row of `2 ^ 31 - 1` columns the end of the row has a smaller address
than its beginning, and a line feed leaves the row as it is. -/
theorem row_not_blanked :
    ¬ Terminal.Alike ((blank.conInit (2 ^ 31 - 1) 1).writeAll [65, 10]).terminal
      ((blank.conInit (2 ^ 31 - 1) 1).terminal.feedAll [65, 10]) := by
  intro h
  have hcell := h.cell 0 0 (by decide) (by decide +kernel) (by decide) (by decide +kernel)
  exact absurd (congrArg Cell.glyph hcell) (by decide +kernel)

end Console

end Neos
