import Neos.Console.Runs

/-!
# Scrolling the screen

`con_scroll` moves the rows of the screen that stay in sight and erases the
others.  On a screen that can be addressed it does so for every offset that can
be negated, as long as the bytes that are moved can be counted and the row of
the cursor fits an `int`.
-/

namespace Neos

open BitMemory

namespace Console

variable {c : Console}

/-! ## Cells -/

/-- A character and its colours. -/
structure Cell where
  glyph : UInt8
  attr : UInt8
deriving DecidableEq

/-- What an erased cell holds. -/
def blankCell : Cell := ⟨0, consoleDefaultAttribute⟩

/-- The cell at a position of the screen. -/
def cellAt (c : Console) (x y : ℤ) : Cell :=
  ⟨c.memory (c.conAt x y), c.memory (wrap (c.conAt x y + 1))⟩

/-- The screen is not empty, and it ends below the last address. -/
structure Placed (c : Console) : Prop where
  width_pos : 1 ≤ c.width
  height_pos : 1 ≤ c.height
  ends : 0xB8000 + 2 * (c.width * c.height) < 2 ^ 32

/-- A position of the screen. -/
structure InSight (c : Console) (x y : ℤ) : Prop where
  x_nonneg : 0 ≤ x
  x_lt : x < c.width
  y_nonneg : 0 ≤ y
  y_lt : y < c.height

/-- The rows of the screen moved up by an offset, those that have no source are
blank, nothing else was accessed, and the cursor moved along as far as the
screen goes. -/
structure Scrolled (c c' : Console) (offset : ℤ) : Prop where
  moved : ∀ x y, c.InSight x y → c.InSight x (y + offset) →
    c'.cellAt x y = c.cellAt x (y + offset)
  blanked : ∀ x y, c.InSight x y → ¬ c.InSight x (y + offset) → c'.cellAt x y = blankCell
  outside : ∀ a, a ∉ c.screen → c'.memory a = c.memory a
  touched : ∀ a ∈ c'.touched, a ∈ c.touched ∨ a ∈ c.screen
  column : c'.x = c.x
  row : c'.y = max 0 (min (c.y - offset) (c.height - 1))

/-- An offset by which the screen can be scrolled: the row of the cursor stays
an `int`, and a `long` counts the bytes of the rows that stay in sight, unless
these rows already hold what is moved into them. -/
structure Scrollable (c : Console) (offset : ℤ) : Prop where
  fits : c.ScrollFits offset
  counted : 2 ^ 31 ≤ 2 * ((c.height - |offset|) * c.width) →
    ∀ x y, c.InSight x y → c.InSight x (y + offset) → c.cellAt x y = c.cellAt x (y + offset)

/-! ## Rows -/

/-- The rows above a row of the screen take fewer cells than the screen has. -/
theorem row_bounds {w h y : ℤ} (hw : 0 ≤ w) (hy₀ : 0 ≤ y) (hy : y ≤ h) :
    0 ≤ y * w ∧ y * w ≤ w * h := by
  rw [mul_comm w h]
  exact ⟨Int.mul_nonneg hy₀ hw, Int.mul_le_mul_of_nonneg_right hy hw⟩

/-- Different cells of a row-major grid have different numbers. -/
theorem cell_number_inj {w x y x' y' : ℤ} (hx₀ : 0 ≤ x) (hx : x < w) (hx₀' : 0 ≤ x')
    (hx' : x' < w) (h : x + y * w = x' + y' * w) : x = x' ∧ y = y' := by
  have hy : y = y' := by
    rcases lt_trichotomy y y' with hlt | heq | hgt
    · have := Int.mul_le_mul_of_nonneg_right (show y + 1 ≤ y' from hlt) (show 0 ≤ w by omega)
      have hnext : (y + 1) * w = y * w + w := by ring
      omega
    · exact heq
    · have := Int.mul_le_mul_of_nonneg_right (show y' + 1 ≤ y from hgt) (show 0 ≤ w by omega)
      have hnext : (y' + 1) * w = y' * w + w := by ring
      omega
  refine ⟨?_, hy⟩
  rw [hy] at h
  omega

theorem Placed.width_lt (hc : c.Placed) : c.width < 2 ^ 31 - 1 := by
  have harea : c.width * 1 ≤ c.width * c.height :=
    Int.mul_le_mul_of_nonneg_left hc.height_pos (Int.le_of_lt hc.width_pos)
  have hends := hc.ends
  omega

theorem Placed.height_lt (hc : c.Placed) : c.height < 2 ^ 31 - 1 := by
  have harea : 1 * c.height ≤ c.width * c.height :=
    Int.mul_le_mul_of_nonneg_right hc.width_pos (Int.le_of_lt hc.height_pos)
  have hends := hc.ends
  omega

theorem Placed.conAt_row (hc : c.Placed) {x y : ℤ} (h₀ : 0 ≤ x + y * c.width)
    (h₁ : x + y * c.width ≤ c.width * c.height) :
    (c.conAt x y : ℤ) = 0xB8000 + 2 * (x + y * c.width) := by
  have hends := hc.ends
  rw [conAt_eq]
  unfold toWord
  omega

/-- The address of the first cell of a row, or of the end of the screen. -/
theorem Placed.conAt_first (hc : c.Placed) {y : ℤ} (hy₀ : 0 ≤ y) (hy : y ≤ c.height) :
    (c.conAt 0 y : ℤ) = 0xB8000 + 2 * (y * c.width) := by
  have hrow := row_bounds (w := c.width) (Int.le_of_lt hc.width_pos) hy₀ hy
  have := hc.conAt_row (x := 0) (y := y) (by omega) (by omega)
  rwa [zero_add] at this

/-- The address of a cell of the screen. -/
theorem Placed.conAt_cell (hc : c.Placed) {x y : ℤ} (hx₀ : 0 ≤ x) (hx : x < c.width)
    (hy₀ : 0 ≤ y) (hy : y < c.height) :
    (c.conAt x y : ℤ) = 0xB8000 + 2 * (x + y * c.width) ∧
      x + y * c.width < c.width * c.height := by
  have hrow := row_bounds (w := c.width) (y := y + 1) (by omega) (by omega)
    (show y + 1 ≤ c.height by omega)
  have hnext : (y + 1) * c.width = y * c.width + c.width := by ring
  have habove : 0 ≤ y * c.width := Int.mul_nonneg hy₀ (by omega)
  exact ⟨hc.conAt_row (by omega) (by omega), by omega⟩

/-- A row in sight lies above a border between rows, all of it. -/
theorem Placed.conAt_above (hc : c.Placed) {x y r : ℤ} (hxy : c.InSight x y) (hr : y < r)
    (hrh : r ≤ c.height) : c.conAt x y + 1 < c.conAt 0 r := by
  obtain ⟨hx₀, hx, hy₀, hy⟩ := hxy
  obtain ⟨hcell, -⟩ := hc.conAt_cell hx₀ hx hy₀ hy
  have hborder := hc.conAt_first (y := r) (by omega) hrh
  have hrows := Int.mul_le_mul_of_nonneg_right (show y + 1 ≤ r from hr) (show 0 ≤ c.width by omega)
  have hnext : (y + 1) * c.width = y * c.width + c.width := by ring
  omega

/-- A row in sight lies below a border between rows, all of it. -/
theorem Placed.conAt_below (hc : c.Placed) {x y r : ℤ} (hxy : c.InSight x y) (hr₀ : 0 ≤ r)
    (hr : r ≤ y) : c.conAt 0 r ≤ c.conAt x y := by
  obtain ⟨hx₀, hx, hy₀, hy⟩ := hxy
  obtain ⟨hcell, -⟩ := hc.conAt_cell hx₀ hx hy₀ hy
  have hborder := hc.conAt_first (y := r) hr₀ (by omega)
  have hrows := Int.mul_le_mul_of_nonneg_right hr (show 0 ≤ c.width by omega)
  omega

theorem Placed.conAt_wrap (hc : c.Placed) {x y : ℤ} (hxy : c.InSight x y) :
    wrap (c.conAt x y + 1) = c.conAt x y + 1 := by
  have hlast := hc.conAt_above hxy hxy.y_lt le_rfl
  apply wrap_of_lt
  have hend : c.conAt 0 c.height < 2 ^ 32 := by
    rw [conAt_eq]
    exact toWord_lt _
  omega

theorem Placed.cellAt_eq (hc : c.Placed) (m : Memory) {x y : ℤ} (hxy : c.InSight x y) :
    cellAt { c with memory := m } x y = ⟨m (c.conAt x y), m (c.conAt x y + 1)⟩ := by
  show Cell.mk (m (c.conAt x y)) (m (wrap (c.conAt x y + 1))) = _
  rw [hc.conAt_wrap hxy]

theorem conAt_even (c : Console) (x y : ℤ) : c.conAt x y % 2 = 0 := by
  rw [conAt_eq]
  exact toWord_even _

/-! ## Erasing rows -/

/-- The memory after the cells between two addresses were erased. -/
def erased (m : Memory) (glyph stop : ℕ) : Memory :=
  fun a =>
    if glyph ≤ a ∧ a < stop then if a % 2 = 0 then 0 else consoleDefaultAttribute else m a

theorem eraseLoop_memory (stop : ℕ) :
    ∀ (fuel glyph : ℕ) (c : Console), glyph % 2 = 0 → stop % 2 = 0 → stop < 2 ^ 32 →
      stop ≤ glyph + fuel →
        (eraseLoop stop fuel glyph c).memory = erased c.memory glyph stop
  | 0, glyph, c, _, _, _, hfuel => by
      funext a
      exact (if_neg (by omega)).symm
  | fuel + 1, glyph, c, hglyph, hstop, hlt, hfuel => by
      unfold eraseLoop
      by_cases hgo : glyph < stop
      · have hnext : wrap (glyph + 2) = glyph + 2 := wrap_of_lt (by omega)
        rw [if_pos hgo, hnext, eraseLoop_memory stop fuel (glyph + 2) _ (by omega) hstop hlt
          (by omega)]
        funext a
        show ite _ _ (store (store _ _ _) _ _ a) = ite _ _ _
        rw [store, store, wrap_of_lt (show glyph < 2 ^ 32 by omega),
          wrap_of_lt (show glyph + 1 < 2 ^ 32 by omega), UInt8.ofNat_toNat, UInt8.ofNat_toNat]
        by_cases heven : a = glyph
        · rw [if_neg (by omega), if_neg (by omega), if_pos heven, if_pos (by omega),
            if_pos (by omega)]
        by_cases hodd : a = glyph + 1
        · rw [if_neg (by omega), if_pos hodd, if_pos (by omega), if_neg (by omega)]
        by_cases hin : glyph ≤ a ∧ a < stop
        · rw [if_pos (by omega), if_pos hin]
        · rw [if_neg (by omega), if_neg hodd, if_neg heven, if_neg hin]
      · rw [if_neg hgo]
        funext a
        exact (if_neg (by omega)).symm

/-- The memory after `con_erase`. -/
theorem conErase_memory (c : Console) (x₁ y₁ x₂ y₂ : ℤ) :
    (c.conErase x₁ y₁ x₂ y₂).memory = erased c.memory (c.conAt x₁ y₁) (c.conAt x₂ y₂) := by
  apply eraseLoop_memory _ _ _ _ (conAt_even c x₁ y₁) (conAt_even c x₂ y₂)
  · rw [conAt_eq]
    exact toWord_lt _
  · omega

/-- Erasing whole rows blanks their cells and no others. -/
theorem Placed.erased_cellAt (hc : c.Placed) (m : Memory) {x y r₁ r₂ : ℤ}
    (hxy : c.InSight x y) (h₁ : 0 ≤ r₁) (h₁' : r₁ ≤ c.height) (h₂ : 0 ≤ r₂)
    (h₂' : r₂ ≤ c.height) :
    cellAt { c with memory := erased m (c.conAt 0 r₁) (c.conAt 0 r₂) } x y =
      if r₁ ≤ y ∧ y < r₂ then blankCell else cellAt { c with memory := m } x y := by
  have heven := conAt_even c x y
  rw [hc.cellAt_eq _ hxy, hc.cellAt_eq _ hxy, erased, erased]
  by_cases hlow : r₁ ≤ y
  · have hbelow := hc.conAt_below hxy h₁ hlow
    by_cases hhigh : y < r₂
    · have habove := hc.conAt_above hxy hhigh h₂'
      rw [if_pos (by omega), if_pos heven, if_pos (by omega), if_neg (by omega),
        if_pos ⟨hlow, hhigh⟩]
      rfl
    · have hunder := hc.conAt_below hxy h₂ (not_lt.mp hhigh)
      rw [if_neg (by omega), if_neg (by omega), if_neg (fun h => hhigh h.2)]
  · have hover := hc.conAt_above hxy (not_le.mp hlow) h₁'
    rw [if_neg (by omega), if_neg (by omega), if_neg (fun h => hlow h.1)]

/-- Moving whole rows copies their cells and changes no others. -/
theorem Placed.moved_cellAt (hc : c.Placed) (m : Memory) {x y dst src rows : ℤ}
    (hxy : c.InSight x y) (hrows : 0 ≤ rows) (hdst : 0 ≤ dst) (hdst' : dst + rows ≤ c.height)
    (hsrc : 0 ≤ src) (hsrc' : src + rows ≤ c.height) :
    cellAt { c with
        memory := memmove m (c.conAt 0 dst) (c.conAt 0 src) (2 * (rows * c.width)) } x y =
      if dst ≤ y ∧ y < dst + rows then cellAt { c with memory := m } x (y - dst + src)
      else cellAt { c with memory := m } x y := by
  have hw := hc.width_pos
  have hends := hc.ends
  have hto := hc.conAt_first hdst (show dst ≤ c.height by omega)
  have hto' := hc.conAt_first (show 0 ≤ dst + rows by omega) hdst'
  have hfrom := hc.conAt_first hsrc (show src ≤ c.height by omega)
  have hdstRows : (dst + rows) * c.width = dst * c.width + rows * c.width := by ring
  have hsrcRows : (src + rows) * c.width = src * c.width + rows * c.width := by ring
  have hdstEnd := row_bounds (show 0 ≤ c.width by omega) (show 0 ≤ dst + rows by omega) hdst'
  have hsrcEnd := row_bounds (show 0 ≤ c.width by omega) (show 0 ≤ src + rows by omega) hsrc'
  obtain ⟨n, hn⟩ := Int.eq_ofNat_of_zero_le
    (show 0 ≤ 2 * (rows * c.width) from
      Int.mul_nonneg (by decide) (Int.mul_nonneg hrows (by omega)))
  rw [hn, memmove_eq m (by omega) (by omega), hc.cellAt_eq _ hxy, hc.cellAt_eq _ hxy]
  by_cases hlow : dst ≤ y
  · have hbelow := hc.conAt_below hxy hdst hlow
    by_cases hhigh : y < dst + rows
    · have habove := hc.conAt_above hxy hhigh hdst'
      have hsource : c.InSight x (y - dst + src) :=
        ⟨hxy.x_nonneg, hxy.x_lt, by omega, by omega⟩
      have hcell := (hc.conAt_cell hxy.x_nonneg hxy.x_lt hxy.y_nonneg hxy.y_lt).1
      have hcell' :=
        (hc.conAt_cell hsource.x_nonneg hsource.x_lt hsource.y_nonneg hsource.y_lt).1
      have hshift : (y - dst + src) * c.width =
          y * c.width - dst * c.width + src * c.width := by ring
      have hglyph : c.conAt x y - c.conAt 0 dst + c.conAt 0 src = c.conAt x (y - dst + src) := by
        omega
      have hattr : c.conAt x y + 1 - c.conAt 0 dst + c.conAt 0 src =
          c.conAt x (y - dst + src) + 1 := by omega
      rw [if_pos (by omega), if_pos (by omega), if_pos ⟨hlow, hhigh⟩, hglyph, hattr,
        hc.cellAt_eq _ hsource]
    · have hunder := hc.conAt_below hxy (by omega) (not_lt.mp hhigh)
      rw [if_neg (by omega), if_neg (by omega), if_neg (fun h => hhigh h.2)]
  · have hover := hc.conAt_above hxy (not_le.mp hlow) (by omega)
    rw [if_neg (by omega), if_neg (by omega), if_neg (fun h => hlow h.1)]

/-! ## Outside the screen -/

theorem Placed.mem_screen (hc : c.Placed) {a : ℕ} (h₀ : 0xB8000 ≤ a)
    (h₁ : (a : ℤ) < 0xB8000 + 2 * (c.width * c.height)) : a ∈ c.screen := by
  have hends := hc.ends
  refine ⟨a - 0xB8000, by omega, by omega, ?_⟩
  unfold toWord
  omega

theorem Placed.erased_outside (hc : c.Placed) (m : Memory) {r₁ r₂ : ℤ} (h₁ : 0 ≤ r₁)
    (h₁' : r₁ ≤ c.height) (h₂ : 0 ≤ r₂) (h₂' : r₂ ≤ c.height) {a : ℕ} (ha : a ∉ c.screen) :
    erased m (c.conAt 0 r₁) (c.conAt 0 r₂) a = m a := by
  have hw := hc.width_pos
  have hfirst := hc.conAt_first h₁ h₁'
  have hstop := hc.conAt_first h₂ h₂'
  have hbefore := row_bounds (show 0 ≤ c.width by omega) h₁ h₁'
  have hend := row_bounds (show 0 ≤ c.width by omega) h₂ h₂'
  rw [erased, if_neg]
  rintro ⟨hlow, hhigh⟩
  exact ha (hc.mem_screen (by omega) (by omega))

theorem Placed.moved_outside (hc : c.Placed) (m : Memory) {dst rows bytes : ℤ} (src : ℕ)
    (hdst : 0 ≤ dst) (hrows : 0 ≤ rows) (hdst' : dst + rows ≤ c.height)
    (hbytes : bytes ≤ 2 * (rows * c.width)) {a : ℕ} (ha : a ∉ c.screen) :
    memmove m (c.conAt 0 dst) src bytes a = m a := by
  have hw := hc.width_pos
  have hends := hc.ends
  have hto := hc.conAt_first hdst (show dst ≤ c.height by omega)
  have hsum : (dst + rows) * c.width = dst * c.width + rows * c.width := by ring
  have hbefore := row_bounds (show 0 ≤ c.width by omega) hdst (show dst ≤ c.height by omega)
  have hend := row_bounds (show 0 ≤ c.width by omega) (show 0 ≤ dst + rows by omega) hdst'
  apply memmove_frame
  rintro j hj rfl
  apply ha
  rw [wrap_of_lt (by omega)]
  exact hc.mem_screen (by omega) (by omega)

/-! ## One move and one erasure -/

/-- Moving some rows by an offset and erasing the others scrolls the screen,
if the move is carried out. -/
theorem Placed.scrolled_iff (hc : c.Placed) {offset dst src rows r₁ r₂ ny : ℤ} {t : List ℕ}
    (hrows : 0 ≤ rows) (hdst : 0 ≤ dst) (hdst' : dst + rows ≤ c.height) (hsrc : 0 ≤ src)
    (hsrc' : src + rows ≤ c.height) (h₁ : 0 ≤ r₁) (h₁' : r₁ ≤ c.height) (h₂ : 0 ≤ r₂)
    (h₂' : r₂ ≤ c.height)
    (hkept : ∀ y, 0 ≤ y → y < c.height →
      ((dst ≤ y ∧ y < dst + rows) ↔ 0 ≤ y + offset ∧ y + offset < c.height))
    (hgone : ∀ y, 0 ≤ y → y < c.height →
      ((r₁ ≤ y ∧ y < r₂) ↔ ¬ (0 ≤ y + offset ∧ y + offset < c.height)))
    (hshift : ∀ y, dst ≤ y → y < dst + rows → y - dst + src = y + offset)
    (ht : ∀ a ∈ t, a ∈ c.touched ∨ a ∈ c.screen) :
    Scrolled c { c with
        memory := erased (memmove c.memory (c.conAt 0 dst) (c.conAt 0 src)
          (wrapInt (rows * wrapInt (c.width * 2)))) (c.conAt 0 r₁) (c.conAt 0 r₂)
        touched := t
        y := ny } offset ↔
      (2 ^ 31 ≤ 2 * (rows * c.width) →
        ∀ x y, c.InSight x y → c.InSight x (y + offset) → c.cellAt x y = c.cellAt x (y + offset)) ∧
      ny = max 0 (min (c.y - offset) (c.height - 1)) := by
  have hw := hc.width_pos
  have hends := hc.ends
  have hbytes₀ : 0 ≤ rows * c.width := Int.mul_nonneg hrows (by omega)
  have hbytes := (row_bounds (show 0 ≤ c.width by omega) hrows (show rows ≤ c.height by omega)).2
  have hmoved := wrapInt_le_self (show 0 ≤ 2 * (rows * c.width) by omega)
  rw [wrapInt_row_bytes]
  generalize hm : memmove c.memory (c.conAt 0 dst) (c.conAt 0 src)
    (wrapInt (2 * (rows * c.width))) = m
  have houtside : ∀ a, a ∉ c.screen →
      erased m (c.conAt 0 r₁) (c.conAt 0 r₂) a = c.memory a := by
    intro a ha
    rw [hc.erased_outside m h₁ h₁' h₂ h₂' ha, ← hm]
    exact hc.moved_outside _ _ hdst hrows hdst' hmoved ha
  have hcell : ∀ x y, c.InSight x y →
      cellAt { c with memory := erased m (c.conAt 0 r₁) (c.conAt 0 r₂) } x y =
        if r₁ ≤ y ∧ y < r₂ then blankCell else cellAt { c with memory := m } x y :=
    fun x y hxy => hc.erased_cellAt m hxy h₁ h₁' h₂ h₂'
  have hblank : ∀ x y, c.InSight x y → ¬ c.InSight x (y + offset) →
      cellAt { c with memory := erased m (c.conAt 0 r₁) (c.conAt 0 r₂) } x y = blankCell := by
    intro x y hxy hnone
    rw [hcell x y hxy, if_pos]
    apply (hgone y hxy.y_nonneg hxy.y_lt).mpr
    exact fun h => hnone ⟨hxy.x_nonneg, hxy.x_lt, h.1, h.2⟩
  have hstays : ∀ x y, c.InSight x y → c.InSight x (y + offset) →
      cellAt { c with memory := erased m (c.conAt 0 r₁) (c.conAt 0 r₂) } x y =
        if 2 ^ 31 ≤ 2 * (rows * c.width) then c.cellAt x y else c.cellAt x (y + offset) := by
    intro x y hxy hsource
    have hin := (hkept y hxy.y_nonneg hxy.y_lt).mpr ⟨hsource.y_nonneg, hsource.y_lt⟩
    have hnot := mt (hgone y hxy.y_nonneg hxy.y_lt).mp
      (not_not.mpr ⟨hsource.y_nonneg, hsource.y_lt⟩)
    rw [hcell x y hxy, if_neg hnot, ← hm]
    split
    · rename_i hover
      rw [memmove_of_nonpos]
      rw [wrapInt_of_over hover (by omega)]
      omega
    · rename_i hfits
      rw [wrapInt_of_fits (by omega) (by omega),
        hc.moved_cellAt c.memory hxy hrows hdst hdst' hsrc hsrc', if_pos hin,
        hshift y hin.1 hin.2]
  constructor
  · intro h
    refine ⟨?_, h.row⟩
    intro hover x y hxy hsource
    have hmove := hstays x y hxy hsource
    rw [if_pos hover] at hmove
    exact hmove.symm.trans (h.moved x y hxy hsource)
  · rintro ⟨hcounted, hrow⟩
    refine ⟨?_, hblank, houtside, ht, rfl, hrow⟩
    intro x y hxy hsource
    refine (hstays x y hxy hsource).trans ?_
    split
    · rename_i hover
      exact hcounted hover x y hxy hsource
    · rfl

/-! ## Scrolling -/

/-- Offsets beyond the height of the screen move no rows. -/
theorem counted_iff {w h n : ℤ} (hw : 1 ≤ w) :
    2 ^ 31 ≤ 2 * ((h - min n h) * w) ↔ 2 ^ 31 ≤ 2 * ((h - n) * w) := by
  rcases le_total n h with hle | hge
  · rw [min_eq_left hle]
  · have hnone : (h - n) * w ≤ 0 := Int.mul_nonpos_of_nonpos_of_nonneg (by omega) (by omega)
    rw [min_eq_right hge, sub_self, Int.zero_mul]
    omega

theorem Placed.conScroll_up_iff (hc : c.Placed) (h₀ : 0 ≤ c.y) (hy : c.y ≤ c.height)
    {offset : ℤ} (h₁ : 0 < offset) :
    Scrolled c (c.conScroll offset) offset ↔ c.Scrollable offset := by
  have hw := hc.width_pos
  have hh := hc.height_pos
  have hh' := hc.height_lt
  have hcount := counted_iff (h := c.height) (n := offset) hw
  have habs : |offset| = offset := abs_of_pos h₁
  have hfits : c.ScrollFits offset := fun h => absurd h (by omega)
  rw [conScroll_up_eq (by omega) hh h₀ hy h₁]
  generalize hlines : min offset c.height = lines at hcount ⊢
  obtain ⟨m, t, hdrawn, ht⟩ :=
    c.rowsUp_eq (show 0 ≤ c.width by omega) (show 0 ≤ lines by omega) (by omega)
  have hm := conErase_memory (c.move (c.conAt 0 0) (c.conAt 0 lines)
    (wrapInt ((c.height - lines) * wrapInt (c.width * 2)))) 0 (c.height - lines) 0 c.height
  rw [hdrawn] at hm ⊢
  change m = erased (memmove c.memory (c.conAt 0 0) (c.conAt 0 lines) _)
    (c.conAt 0 (c.height - lines)) (c.conAt 0 c.height) at hm
  rw [conCursor_eq, hm]
  refine (hc.scrolled_iff (by omega) le_rfl (by omega) (by omega) (by omega) (by omega) (by omega)
    (by omega) le_rfl (fun y _ _ => by omega) (fun y _ _ => by omega) (fun y _ _ => by omega)
    ht).trans ?_
  constructor
  · rintro ⟨hcounted, -⟩
    refine ⟨hfits, ?_⟩
    rw [habs, ← hcount]
    exact hcounted
  · rintro ⟨-, hcounted⟩
    rw [habs, ← hcount] at hcounted
    exact ⟨hcounted, by omega⟩

theorem Placed.conScroll_down_iff (hc : c.Placed) (h₀ : 0 ≤ c.y) (hy : c.y < c.height)
    {offset : ℤ} (h₁ : -2 ^ 31 < offset) (h₂ : offset < 0) :
    Scrolled c (c.conScroll offset) offset ↔ c.Scrollable offset := by
  have hw := hc.width_pos
  have hh := hc.height_pos
  have hh' := hc.height_lt
  have hcount := counted_iff (h := c.height) (n := -offset) hw
  have habs : |offset| = -offset := abs_of_neg h₂
  have hfits : c.ScrollFits offset ↔ c.y + min (-offset) c.height < 2 ^ 31 :=
    ⟨fun h => (h h₂).2, fun h _ => ⟨by omega, h⟩⟩
  rw [conScroll_down_eq (by omega) hh h₁ h₂]
  generalize hlines : min (-offset) c.height = lines at hcount hfits ⊢
  obtain ⟨m, t, hdrawn, ht⟩ :=
    c.rowsDown_eq (show 0 ≤ c.width by omega) (show 0 ≤ lines by omega) (by omega)
  have hm := conErase_memory (c.move (c.conAt 0 lines) (c.conAt 0 0)
    (wrapInt ((c.height - lines) * wrapInt (c.width * 2)))) 0 0 0 lines
  rw [hdrawn] at hm ⊢
  change m = erased (memmove c.memory (c.conAt 0 lines) (c.conAt 0 0) _)
    (c.conAt 0 0) (c.conAt 0 lines) at hm
  -- A row that overflows comes out above the screen.
  have hrow : min (wrapInt (c.y + lines)) (c.height - 1) =
      max 0 (min (c.y - offset) (c.height - 1)) ↔ c.y + lines < 2 ^ 31 := by
    rcases lt_or_ge (c.y + lines) (2 ^ 31) with hin | hover
    · rw [wrapInt_of_fits (by omega) hin]
      omega
    · rw [wrapInt_of_over hover (by omega)]
      omega
  rw [conCursor_eq, hm]
  refine (hc.scrolled_iff (by omega) (by omega) (by omega) le_rfl (by omega) le_rfl (by omega)
    (by omega) (by omega) (fun y _ _ => by omega) (fun y _ _ => by omega) (fun y _ _ => by omega)
    ht).trans ?_
  constructor
  · rintro ⟨hcounted, hny⟩
    refine ⟨hfits.mpr (hrow.mp hny), ?_⟩
    rw [habs, ← hcount]
    exact hcounted
  · rintro ⟨hlow, hcounted⟩
    rw [habs, ← hcount] at hcounted
    exact ⟨hcounted, hrow.mpr (hfits.mp hlow)⟩

/-- `con_scroll` scrolls a screen by exactly the offsets by which it can be
scrolled.  The cursor may be one row below the screen when the screen is
scrolled up, as it is at the end of the last row. -/
theorem conScroll_scrolls_iff (hc : c.Placed) (h₀ : 0 ≤ c.y) {offset : ℤ}
    (hy : c.y < c.height ∨ c.y = c.height ∧ 0 < offset) (h₁ : -2 ^ 31 ≤ offset) :
    Scrolled c (c.conScroll offset) offset ↔ c.Scrollable offset := by
  rcases lt_trichotomy offset 0 with hneg | rfl | hpos
  · have hinside : c.y < c.height := by omega
    rcases eq_or_lt_of_le h₁ with rfl | hlow
    · have hlost := conScroll_lowest hc.height_pos (by have := hc.height_lt; omega) h₀ hinside
      constructor
      · intro h
        have hrow := h.row
        omega
      · intro h
        exact absurd (h.fits hneg).1 (by decide)
    · exact hc.conScroll_down_iff h₀ hinside hlow hneg
  · have hself : c.conScroll 0 = c := rfl
    have hsame : ∀ y : ℤ, y + 0 = y := add_zero
    rw [hself]
    apply iff_of_true
    · refine ⟨fun x y _ _ => by rw [hsame], ?_, fun _ _ => rfl, fun _ ha => .inl ha, rfl, by omega⟩
      intro x y hxy hnone
      rw [hsame] at hnone
      exact absurd hxy hnone
    · exact ⟨fun h => absurd h (lt_irrefl 0), fun _ x y _ _ => by rw [hsame]⟩
  · exact hc.conScroll_up_iff h₀ (by omega) hpos

/-- Three rows up on the text screen. -/
theorem conScroll_scrolls_iff_three :
    Scrolled (blank.conInit 80 25) ((blank.conInit 80 25).conScroll 3) 3 :=
  (conScroll_scrolls_iff ⟨by decide +kernel, by decide +kernel, by decide +kernel⟩
    (by decide +kernel) (.inl (by decide +kernel)) (by decide)).mpr
      ⟨fun h => absurd h (by decide), fun h => absurd h (by decide +kernel)⟩

/-- The least `int`, which the sequence `ESC [ 2147483648 S` asks for, takes the
cursor off the text screen. -/
theorem conScroll_least_int :
    ¬ Scrolled (blank.conInit 80 25) ((blank.conInit 80 25).conScroll (-2 ^ 31)) (-2 ^ 31) := by
  intro h
  exact absurd h.row (by decide +kernel)

end Console

end Neos
