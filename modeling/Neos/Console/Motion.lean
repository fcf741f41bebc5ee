import Neos.Console.Sequences

/-!
# Controls that move the cursor

Where a control takes the cursor is compared with where it should, on a screen of
any size.  Moving up, down, forward and backward, and to the next line, are right
as long as the sum is an `int`.  The branch of the previous line is never taken,
the row and the column of a position are exchanged, and the cursor does not stay
at the tab stop it moved to.
-/

namespace Neos

namespace Console

variable {c : Console}

/-! ## The controls -/

/-- The controls that move the cursor, with their parameters.  The column of a
position is `none` when its separator is omitted as well. -/
inductive Motion
  | cuu (n : Option ℕ)
  | cud (n : Option ℕ)
  | cuf (n : Option ℕ)
  | cub (n : Option ℕ)
  | cnl (n : Option ℕ)
  | cpl (n : Option ℕ)
  | cup (row : Option ℕ) (column : Option (Option ℕ))
  | hvp (row : Option ℕ) (column : Option (Option ℕ))
  | tab

/-- The parameters of a position. -/
def positionText (row : Option ℕ) (column : Option (Option ℕ)) : List UInt8 :=
  parameterText row ++ column.elim [] fun n => separator :: parameterText n

namespace Motion

/-- The bytes of a control. -/
def bytes : Motion → List UInt8
  | cuu n => controlSequence (parameterText n) ansiCsiCuu
  | cud n => controlSequence (parameterText n) ansiCsiCud
  | cuf n => controlSequence (parameterText n) ansiCsiCuf
  | cub n => controlSequence (parameterText n) ansiCsiCub
  | cnl n => controlSequence (parameterText n) ansiCsiCnl
  | cpl n => controlSequence (parameterText n) ansiCsiCpl
  | cup row column => controlSequence (positionText row column) ansiCsiCup
  | hvp row column => controlSequence (positionText row column) ansiCsiHvp
  | tab => [ansiTab]

/-- The parameters that are present. -/
def parameters : Motion → List ℕ
  | cuu n | cud n | cuf n | cub n | cnl n | cpl n => n.toList
  | cup row column | hvp row column => row.toList ++ column.join.toList
  | tab => []

/-- The next tab stop to the right of a column. -/
def tabStop (x : ℤ) : ℤ := (x / consoleTabDistance + 1) * consoleTabDistance

/-- The column and the row a control should move the cursor to. -/
def target (c : Console) : Motion → ℤ × ℤ
  | cuu n => (c.x, max 0 (c.y - given n 1))
  | cud n => (c.x, min (c.y + given n 1) (c.height - 1))
  | cuf n => (min (c.x + given n 1) (c.width - 1), c.y)
  | cub n => (max 0 (c.x - given n 1), c.y)
  | cnl n => (0, min (c.y + given n 1) (c.height - 1))
  | cpl n => (0, max 0 (c.y - given n 1))
  | cup row column | hvp row column =>
      (max 0 (min (given column.join 1 - 1) (c.width - 1)),
        max 0 (min (given row 1 - 1) (c.height - 1)))
  | tab =>
      if tabStop c.x < c.width then (tabStop c.x, c.y) else (0, min (c.y + 1) (c.height - 1))

/-- Exchanging the row and the column of a position makes no difference. -/
def Symmetric (c : Console) (row column : ℤ) : Prop :=
  max 1 row = max 1 column ∨
    max c.width c.height ≤ max 1 row ∧ max c.width c.height ≤ max 1 column

/-- When a control moves the cursor where it should. -/
def Accurate (c : Console) : Motion → Prop
  | cuu _ | cub _ => True
  | cud n | cnl n => c.y + given n 1 < 2 ^ 31
  | cuf n => c.x + given n 1 < 2 ^ 31
  | cpl n => c.x = 0 ∧ (c.y = 0 ∨ given n 1 = 0)
  | cup row column | hvp row column => Symmetric c (given row 1) (given column.join 1)
  | tab =>
      c.width ≤ tabStop c.x ∧
        if c.x % consoleTabDistance = 0 then c.x + 1 = c.width else c.x + 3 < 2 ^ 31

end Motion

/-! ## Parameters of one control -/

theorem given_bounds {p : Option ℕ} (hp : ∀ n ∈ p, n < 2 ^ 15) :
    0 ≤ given p 1 ∧ given p 1 < 2 ^ 15 := by
  cases p with
  | none => exact ⟨by decide, by decide⟩
  | some n =>
      have hlt := hp n rfl
      show (0 : ℤ) ≤ (n : ℤ) ∧ (n : ℤ) < 2 ^ 15
      omega

theorem length_positionText_le {row : Option ℕ} {column : Option (Option ℕ)}
    (hrow : ∀ n ∈ row, n < 2 ^ 15) (hcolumn : ∀ n ∈ column.join, n < 2 ^ 15) :
    (positionText row column).length ≤ 11 := by
  have hfirst := length_parameterText_le hrow
  rw [positionText, List.length_append]
  cases column with
  | none =>
      show (parameterText row).length + 0 ≤ 11
      omega
  | some p =>
      have hsecond := length_parameterText_le (p := p) hcolumn
      show (parameterText row).length + ((parameterText p).length + 1) ≤ 11
      omega

theorem not_final_of_mem_positionText {row : Option ℕ} {column : Option (Option ℕ)} {code : UInt8}
    (h : code ∈ positionText row column) : ¬ ansiCsiFinal code := by
  rcases List.mem_append.mp h with hrow | hcolumn
  · exact not_final_of_mem_parameterText hrow
  cases column with
  | none => exact absurd hcolumn List.not_mem_nil
  | some p =>
      rcases List.mem_cons.mp hcolumn with rfl | hp
      · decide
      · exact not_final_of_mem_parameterText hp

/-- The parameters of a position whose separator is omitted: the second one is
read behind the end. -/
theorem collected_row {row : Option ℕ} (hrow : ∀ n ∈ row, n < 2 ^ 31) {final : UInt8}
    (hfinal : ansiCsiFinal final) :
    let sequence := collected (positionText row none) final
    let last := (positionText row none).length + 1
    let arg := conNextInt sequence 1 last 1
    arg.1 = given row 1 ∧
      (conNextInt sequence (conNextChar sequence arg.2 last).2 last 1).1 = 1 := by
  intro sequence last arg
  have hlast : last = 1 + (parameterText row).length := by
    show (parameterText row ++ []).length + 1 = _
    rw [List.append_nil, Nat.add_comm]
  have hsequence : sequence = [ansiCsi] ++ parameterText row ++ final :: [] := by
    show ansiCsi :: ((parameterText row ++ []) ++ [final]) = _
    rw [List.append_nil]
    rfl
  have harg : arg = (given row 1, 1 + (parameterText row).length) := by
    show conNextInt sequence 1 last 1 = _
    rw [hsequence]
    exact conNextInt_parameter hrow (isDigit_of_final hfinal)
      (by rw [hlast]; rfl) 1
  have hin : ¬ 1 + (parameterText row).length > last := by omega
  rw [harg]
  refine ⟨rfl, ?_⟩
  rw [conNextChar, if_neg hin, conNextInt_past _ (by omega)]

/-- The two parameters of a position, one on each side of the separator. -/
theorem collected_row_column {row column : Option ℕ} (hrow : ∀ n ∈ row, n < 2 ^ 31)
    (hcolumn : ∀ n ∈ column, n < 2 ^ 31) {final : UInt8} (hfinal : ansiCsiFinal final) :
    let sequence := collected (positionText row (some column)) final
    let last := (positionText row (some column)).length + 1
    let arg := conNextInt sequence 1 last 1
    arg.1 = given row 1 ∧
      (conNextInt sequence (conNextChar sequence arg.2 last).2 last 1).1 = given column 1 := by
  intro sequence last arg
  have hlast : last = (parameterText row).length + ((parameterText column).length + 1) + 1 := by
    show (parameterText row ++ separator :: parameterText column).length + 1 = _
    rw [List.length_append, List.length_cons]
  have hsequence : sequence =
      [ansiCsi] ++ parameterText row ++ separator :: (parameterText column ++ [final]) := by
    show ansiCsi :: ((parameterText row ++ separator :: parameterText column) ++ [final]) = _
    rw [List.append_assoc]
    rfl
  have hbehind : sequence =
      (ansiCsi :: (parameterText row ++ [separator])) ++ parameterText column ++ final :: [] := by
    rw [hsequence]
    simp
  have hhead : (ansiCsi :: (parameterText row ++ [separator])).length =
      1 + (parameterText row).length + 1 := by
    rw [List.length_cons, List.length_append, List.length_singleton]
    omega
  have harg : arg = (given row 1, 1 + (parameterText row).length) := by
    show conNextInt sequence 1 last 1 = _
    rw [hsequence]
    exact conNextInt_parameter hrow (by decide)
      (show 1 + (parameterText row).length ≤ last by omega) 1
  have hin : ¬ 1 + (parameterText row).length > last := by omega
  rw [harg]
  refine ⟨rfl, ?_⟩
  rw [conNextChar, if_neg hin, hbehind, ← hhead,
    conNextInt_parameter hcolumn (isDigit_of_final hfinal) (by omega)]

/-- The parameters of a position. -/
theorem collected_position {row : Option ℕ} {column : Option (Option ℕ)}
    (hrow : ∀ n ∈ row, n < 2 ^ 31) (hcolumn : ∀ n ∈ column.join, n < 2 ^ 31) {final : UInt8}
    (hfinal : ansiCsiFinal final) :
    let sequence := collected (positionText row column) final
    let last := (positionText row column).length + 1
    let arg := conNextInt sequence 1 last 1
    arg.1 = given row 1 ∧
      (conNextInt sequence (conNextChar sequence arg.2 last).2 last 1).1 =
        given column.join 1 := by
  cases column with
  | none => exact collected_row hrow hfinal
  | some p => exact collected_row_column hrow hcolumn hfinal

/-! ## The cursor after each control -/

/-- The column and the row of the cursor. -/
def position (c : Console) : ℤ × ℤ := (c.x, c.y)

theorem cMax_eq_max (left right : ℤ) : cMax left right = max left right := by
  unfold cMax
  split <;> omega

theorem clamp_eq (v n : ℤ) (hn : 1 ≤ n) : clamp v 0 (n - 1) = max 0 (min v (n - 1)) := by
  unfold clamp
  split
  · omega
  split <;> omega

/-- A control with one parameter leaves the cursor where `con_csi_execute` puts
it. -/
theorem position_control (hlexer : c.outputLexer = .initial) {p : Option ℕ}
    (hp : ∀ n ∈ p, n < 2 ^ 15) {final : UInt8} (hfinal : ansiCsiFinal final) {x y : ℤ}
    (hmoved : ∀ s : Console, s.x = c.x → s.y = c.y → s.width = c.width → s.height = c.height →
      s.sequence.getD ((parameterText p).length + 1) 0 = final →
      (conNextInt s.sequence 1 ((parameterText p).length + 1) 1).1 = given p 1 →
        (s.conCsiExecute 1 ((parameterText p).length + 1)).position = (x, y)) :
    (c.writeAll (controlSequence (parameterText p) final)).position = (x, y) := by
  rw [writeAll_parameter hlexer hp hfinal]
  apply hmoved (c.entered (parameterText p) final)
  · rfl
  · rfl
  · rfl
  · rfl
  · exact collected_final _ _
  · exact collected_parameter (fun n hn => (hp n hn).trans (by decide)) hfinal 1

theorem position_cuu (hs : c.OnScreen) (hh : c.height < 2 ^ 31)
    (hlexer : c.outputLexer = .initial) {n : Option ℕ} (hn : ∀ k ∈ n, k < 2 ^ 15) :
    (c.writeAll (Motion.cuu n).bytes).position = (c.x, max 0 (c.y - given n 1)) := by
  obtain ⟨hn₀, hn₁⟩ := given_bounds hn
  have hy₀ := hs.y_nonneg
  have hy := hs.y_lt
  apply position_control hlexer hn (by decide)
  intro s hx hrow _ _ hcode harg
  unfold conCsiExecute
  simp only [hcode, harg, if_true]
  rw [conCursor_eq, cMax_eq_max, hrow,
    wrapInt_of_fits (by omega) (by omega), max_comm, ← hx]
  rfl

theorem position_cub (hs : c.OnScreen) (hw : c.width < 2 ^ 31)
    (hlexer : c.outputLexer = .initial) {n : Option ℕ} (hn : ∀ k ∈ n, k < 2 ^ 15) :
    (c.writeAll (Motion.cub n).bytes).position = (max 0 (c.x - given n 1), c.y) := by
  obtain ⟨hn₀, hn₁⟩ := given_bounds hn
  have hx₀ := hs.x_nonneg
  have hx := hs.x_lt
  apply position_control hlexer hn (by decide)
  intro s hcolumn hy _ _ hcode harg
  unfold conCsiExecute
  simp only [hcode, harg, if_true]
  rw [if_neg (by decide), if_neg (by decide), if_neg (by decide), conCursor_eq,
    cMax_eq_max, hcolumn, wrapInt_of_fits (by omega) (by omega), max_comm, ← hy]
  rfl

theorem position_cud (hlexer : c.outputLexer = .initial) {n : Option ℕ}
    (hn : ∀ k ∈ n, k < 2 ^ 15) :
    (c.writeAll (Motion.cud n).bytes).position =
      (c.x, min (wrapInt (c.y + given n 1)) (c.height - 1)) := by
  apply position_control hlexer hn (by decide)
  intro s hx hy _ hh hcode harg
  unfold conCsiExecute
  simp only [hcode, harg, if_true]
  rw [if_neg (by decide), conCursor_eq, cMin_eq_min, hy, hh, ← hx]
  rfl

theorem position_cuf (hlexer : c.outputLexer = .initial) {n : Option ℕ}
    (hn : ∀ k ∈ n, k < 2 ^ 15) :
    (c.writeAll (Motion.cuf n).bytes).position =
      (min (wrapInt (c.x + given n 1)) (c.width - 1), c.y) := by
  apply position_control hlexer hn (by decide)
  intro s hx hy hw _ hcode harg
  unfold conCsiExecute
  simp only [hcode, harg, if_true]
  rw [if_neg (by decide), if_neg (by decide), conCursor_eq, cMin_eq_min, hx, hw, ← hy]
  rfl

theorem position_cnl (hlexer : c.outputLexer = .initial) {n : Option ℕ}
    (hn : ∀ k ∈ n, k < 2 ^ 15) :
    (c.writeAll (Motion.cnl n).bytes).position =
      (0, min (wrapInt (c.y + given n 1)) (c.height - 1)) := by
  apply position_control hlexer hn (by decide)
  intro s _ hy _ hh hcode harg
  unfold conCsiExecute
  simp only [hcode, harg, if_true]
  rw [if_neg (by decide), if_neg (by decide), if_neg (by decide), if_neg (by decide),
    conCursor_eq, cMin_eq_min, hy, hh]
  rfl

/-- No branch of `con_csi_execute` is for the previous line. -/
theorem position_cpl (hlexer : c.outputLexer = .initial) {n : Option ℕ}
    (hn : ∀ k ∈ n, k < 2 ^ 15) :
    (c.writeAll (Motion.cpl n).bytes).position = c.position := by
  apply position_control hlexer hn (by decide)
  intro s hx hy _ _ hcode _
  have hnone : s.conCsiExecute 1 ((parameterText n).length + 1) = s := by
    unfold conCsiExecute
    simp only [hcode]
    simp +decide
  rw [hnone, ← hx, ← hy]
  rfl

/-- A position takes its first parameter as the column. -/
theorem position_cup (hs : c.OnScreen) (hlexer : c.outputLexer = .initial) {row : Option ℕ}
    {column : Option (Option ℕ)} (hrow : ∀ n ∈ row, n < 2 ^ 15)
    (hcolumn : ∀ n ∈ column.join, n < 2 ^ 15) {final : UInt8}
    (hfinal : final = ansiCsiCup ∨ final = ansiCsiHvp) :
    (c.writeAll (controlSequence (positionText row column) final)).position =
      (max 0 (min (given row 1 - 1) (c.width - 1)),
        max 0 (min (given column.join 1 - 1) (c.height - 1))) := by
  obtain ⟨hrow₀, hrow₁⟩ := given_bounds hrow
  obtain ⟨hcolumn₀, hcolumn₁⟩ := given_bounds hcolumn
  have hlength := length_positionText_le hrow hcolumn
  have hends : ansiCsiFinal final := by
    rcases hfinal with rfl | rfl <;> decide
  have hw : 1 ≤ c.width := by
    have := hs.x_nonneg
    have := hs.x_lt
    omega
  have hh : 1 ≤ c.height := by
    have := hs.y_nonneg
    have := hs.y_lt
    omega
  rw [writeAll_controlSequence hlexer (fun code hcode => not_final_of_mem_positionText hcode)
    hends (by
      rw [collected, List.length_cons, List.length_append]
      show (positionText row column).length + 1 + 1 ≤ 64
      omega)]
  obtain ⟨hfirst, hsecond⟩ := collected_position (fun n hn => (hrow n hn).trans (by decide))
    (fun n hn => (hcolumn n hn).trans (by decide)) hends
  have hmoved : ∀ s : Console, s.width = c.width → s.height = c.height →
      s.sequence = collected (positionText row column) final →
      (s.conCsiExecute 1 ((positionText row column).length + 1)).position =
        (max 0 (min (given row 1 - 1) (c.width - 1)),
          max 0 (min (given column.join 1 - 1) (c.height - 1))) := by
    intro s hwidth hheight hsequence
    unfold conCsiExecute
    simp only [hsequence, collected_final, hfirst, hsecond]
    rw [if_neg (by rcases hfinal with rfl | rfl <;> decide),
      if_neg (by rcases hfinal with rfl | rfl <;> decide),
      if_neg (by rcases hfinal with rfl | rfl <;> decide),
      if_neg (by rcases hfinal with rfl | rfl <;> decide),
      if_neg (by rcases hfinal with rfl | rfl <;> decide),
      if_neg (by rcases hfinal with rfl | rfl <;> decide), if_pos hfinal, conCursor_eq, hwidth,
      hheight, wrapInt_of_fits (by omega) (by omega), wrapInt_of_fits (by omega) (by omega),
      clamp_eq _ _ hw, clamp_eq _ _ hh]
    rfl
  exact hmoved (c.entered (positionText row column) final) rfl rfl rfl

/-- From the label `adjust` on, the cursor goes to the next cell. -/
theorem position_adjust (hh : c.height < 2 ^ 31) (hx₀ : -2 ^ 31 ≤ c.x) (hx : c.x < 2 ^ 31 - 1)
    (hy₀ : 0 ≤ c.y) (hy : c.y < c.height) :
    c.adjust.position =
      if c.x + 1 < c.width then (c.x + 1, c.y) else (0, min (c.y + 1) (c.height - 1)) := by
  have hnx : wrapInt (c.x + 1) = c.x + 1 := wrapInt_of_fits (by omega) (by omega)
  have hny : wrapInt (c.y + 1) = c.y + 1 := wrapInt_of_fits (by omega) (by omega)
  unfold adjust
  simp only [hnx, hny, conCursor_eq]
  by_cases hroom : c.x + 1 < c.width
  · rw [if_neg (not_le.mpr hroom), if_neg (not_le.mpr hy), if_pos hroom]
    rfl
  · rw [if_pos (not_lt.mp hroom), if_neg hroom]
    by_cases hbelow : c.y + 1 < c.height
    · rw [if_neg (not_le.mpr hbelow), min_eq_left (by omega)]
      rfl
    · rw [if_pos (not_lt.mp hbelow), min_eq_right (by omega),
        conScroll_up_eq (c := { c with x := 0, y := c.y + 1 }) hh (show 1 ≤ c.height by omega)
          (show 0 ≤ c.y + 1 by omega) (show c.y + 1 ≤ c.height by omega) one_pos, conCursor_eq]
      show ((0 : ℤ), max 0 (c.y + 1 - min 1 c.height)) = _
      rw [Prod.mk.injEq]
      omega

/-- After a tab the cursor is behind the tab stop at or after its column. -/
theorem position_tab (hs : c.OnScreen) (hw : c.width < 2 ^ 31) (hh : c.height < 2 ^ 31)
    (hlexer : c.outputLexer = .initial) :
    (c.writeAll Motion.tab.bytes).position =
      if c.conNextTabStop + 1 < c.width then (c.conNextTabStop + 1, c.y)
      else (0, min (c.y + 1) (c.height - 1)) := by
  have hx := hs.x_lt
  obtain ⟨hfits, hover⟩ := conNextTabStop_eq hs.x_nonneg (show c.x < 2 ^ 31 - 1 by omega)
  have hstop : -2 ^ 31 ≤ c.conNextTabStop ∧ c.conNextTabStop < 2 ^ 31 - 1 := by
    rcases lt_or_ge (c.x + 3) (2 ^ 31) with h | h
    · have hin := hfits h
      omega
    · have hout := hover h
      omega
  have hstep : c.writeAll Motion.tab.bytes = (c.conCursor c.conNextTabStop c.y).adjust :=
    (conWrite_initial hlexer ansiTab).trans c.conLexerInitial_tab
  rw [hstep, conCursor_eq]
  exact position_adjust (c := { c with x := c.conNextTabStop }) hh hstop.1 hstop.2 hs.y_nonneg
    hs.y_lt

/-! ## Where the controls are right -/

/-- A sum that should stop at the end of the screen does so unless it
overflows. -/
theorem forth_eq_iff {v n arg : ℤ} (h₀ : 0 ≤ v) (hv : v < n) (hn : n < 2 ^ 31) (h₁ : 0 ≤ arg)
    (h₂ : arg < 2 ^ 15) :
    min (wrapInt (v + arg)) (n - 1) = min (v + arg) (n - 1) ↔ v + arg < 2 ^ 31 := by
  rcases lt_or_ge (v + arg) (2 ^ 31) with hfits | hover
  · rw [wrapInt_of_fits (by omega) hfits]
    exact iff_of_true rfl hfits
  · rw [wrapInt_of_over hover (by omega)]
    exact iff_of_false (by omega) (by omega)

theorem symmetric_iff {row column : ℤ} (hw : 1 ≤ c.width) (hh : 1 ≤ c.height) :
    ((max 0 (min (row - 1) (c.width - 1)), max 0 (min (column - 1) (c.height - 1))) =
        ((max 0 (min (column - 1) (c.width - 1)), max 0 (min (row - 1) (c.height - 1))) : ℤ × ℤ)) ↔
      Motion.Symmetric c row column := by
  rw [Prod.mk.injEq, Motion.Symmetric]
  omega

/-- The tab stop that `con_next_tab_stop` finds: the column itself when it is
one. -/
theorem conNextTabStop_cases (hx₀ : 0 ≤ c.x) (hx : c.x < 2 ^ 31 - 1) :
    c.conNextTabStop =
      if c.x % consoleTabDistance = 0 then c.x
      else if c.x + 3 < 2 ^ 31 then Motion.tabStop c.x else -2 ^ 31 := by
  unfold conNextTabStop Motion.tabStop consoleTabDistance
  rw [Int.tdiv_eq_ediv_of_nonneg hx₀, Int.tmod_eq_emod_of_nonneg hx₀, wrapInt_eq]
  by_cases hstop : c.x % 4 = 0
  · rw [if_neg (not_not.mpr hstop), if_pos hstop]
    split <;> omega
  · rw [if_pos hstop, if_neg hstop]
    split <;> split <;> omega

theorem tab_iff (hs : c.OnScreen) (hw : c.width < 2 ^ 31) :
    ((if c.conNextTabStop + 1 < c.width then (c.conNextTabStop + 1, c.y)
        else (0, min (c.y + 1) (c.height - 1))) = Motion.tab.target c) ↔
      Motion.tab.Accurate c := by
  have hx₀ := hs.x_nonneg
  have hx := hs.x_lt
  rw [Motion.target, Motion.Accurate, conNextTabStop_cases hx₀ (by omega)]
  unfold Motion.tabStop consoleTabDistance
  by_cases hcolumn : c.x % 4 = 0
  · simp only [if_pos hcolumn]
    split <;> split <;> rw [Prod.mk.injEq] <;> omega
  · simp only [if_neg hcolumn]
    split <;> split <;> split <;> rw [Prod.mk.injEq] <;> omega

/-- On a screen of any size and from any position on it, a control that moves the
cursor takes it where it should exactly when it is accurate there. -/
theorem position_eq_target_iff (hs : c.OnScreen) (hw : c.width < 2 ^ 31) (hh : c.height < 2 ^ 31)
    (hlexer : c.outputLexer = .initial) (m : Motion) (hm : ∀ n ∈ m.parameters, n < 2 ^ 15) :
    (c.writeAll m.bytes).position = m.target c ↔ m.Accurate c := by
  obtain ⟨hx₀, hx, hy₀, hy⟩ := id hs
  cases m with
  | cuu n =>
      rw [position_cuu hs hh hlexer fun k hk => hm k (Option.mem_toList.mpr hk)]
      exact iff_of_true rfl trivial
  | cub n =>
      rw [position_cub hs hw hlexer fun k hk => hm k (Option.mem_toList.mpr hk)]
      exact iff_of_true rfl trivial
  | cud n =>
      have hn : ∀ k ∈ n, k < 2 ^ 15 := fun k hk => hm k (Option.mem_toList.mpr hk)
      obtain ⟨hn₀, hn₁⟩ := given_bounds hn
      rw [position_cud hlexer hn, Motion.target, Prod.mk.injEq, and_iff_right rfl]
      exact forth_eq_iff hy₀ hy hh hn₀ hn₁
  | cuf n =>
      have hn : ∀ k ∈ n, k < 2 ^ 15 := fun k hk => hm k (Option.mem_toList.mpr hk)
      obtain ⟨hn₀, hn₁⟩ := given_bounds hn
      rw [position_cuf hlexer hn, Motion.target, Prod.mk.injEq, and_iff_left rfl]
      exact forth_eq_iff hx₀ hx hw hn₀ hn₁
  | cnl n =>
      have hn : ∀ k ∈ n, k < 2 ^ 15 := fun k hk => hm k (Option.mem_toList.mpr hk)
      obtain ⟨hn₀, hn₁⟩ := given_bounds hn
      rw [position_cnl hlexer hn, Motion.target, Prod.mk.injEq, and_iff_right rfl]
      exact forth_eq_iff hy₀ hy hh hn₀ hn₁
  | cpl n =>
      have hn : ∀ k ∈ n, k < 2 ^ 15 := fun k hk => hm k (Option.mem_toList.mpr hk)
      obtain ⟨hn₀, hn₁⟩ := given_bounds hn
      rw [position_cpl hlexer hn, Motion.target, Motion.Accurate, position, Prod.mk.injEq]
      omega
  | cup row column =>
      have hrow : ∀ k ∈ row, k < 2 ^ 15 := fun k hk =>
        hm k (List.mem_append_left _ (Option.mem_toList.mpr hk))
      have hcolumn : ∀ k ∈ column.join, k < 2 ^ 15 := fun k hk =>
        hm k (List.mem_append_right _ (Option.mem_toList.mpr hk))
      rw [Motion.bytes, position_cup hs hlexer hrow hcolumn (.inl rfl)]
      exact symmetric_iff (by omega) (by omega)
  | hvp row column =>
      have hrow : ∀ k ∈ row, k < 2 ^ 15 := fun k hk =>
        hm k (List.mem_append_left _ (Option.mem_toList.mpr hk))
      have hcolumn : ∀ k ∈ column.join, k < 2 ^ 15 := fun k hk =>
        hm k (List.mem_append_right _ (Option.mem_toList.mpr hk))
      rw [Motion.bytes, position_cup hs hlexer hrow hcolumn (.inr rfl)]
      exact symmetric_iff (by omega) (by omega)
  | tab =>
      rw [position_tab hs hw hh hlexer]
      exact tab_iff hs hw

/-- The text screen, on which the cursor moves three columns forward. -/
theorem position_eq_target_iff_textMode :
    ((blank.conInit 80 25).writeAll (Motion.cuf (some 3)).bytes).position =
        (Motion.cuf (some 3)).target (blank.conInit 80 25) ↔
      (Motion.cuf (some 3)).Accurate (blank.conInit 80 25) :=
  position_eq_target_iff
    (blank.conInit_spec (by decide) (by decide) (by decide) (by decide)).2.cursor
    (by decide +kernel) (by decide +kernel) (by decide +kernel) _ (by decide)

/-- `ESC [ 2 ; 3 H` takes the cursor of the text screen to the second column of
the third row. -/
theorem row_and_column_exchanged :
    ¬ ∀ (c : Console) (m : Motion), c.OnScreen → c.width < 2 ^ 31 → c.height < 2 ^ 31 →
      c.outputLexer = .initial → (∀ n ∈ m.parameters, n < 2 ^ 15) →
        (c.writeAll m.bytes).position = m.target c := by
  intro h
  have hscreen : (blank.conInit 80 25).OnScreen :=
    (blank.conInit_spec (by decide) (by decide) (by decide) (by decide)).2.cursor
  have hlexer : (blank.conInit 80 25).outputLexer = .initial := by decide +kernel
  have hsize : (blank.conInit 80 25).width = 80 ∧ (blank.conInit 80 25).height = 25 := by
    decide +kernel
  have hmoved : ((blank.conInit 80 25).writeAll
      (Motion.cup (some 2) (some (some 3))).bytes).position = _ :=
    position_cup hscreen hlexer (by decide) (by decide) (.inl rfl)
  have hright := h (blank.conInit 80 25) (.cup (some 2) (some (some 3))) hscreen
    (by decide +kernel) (by decide +kernel) hlexer (by decide)
  rw [Motion.target, hsize.1, hsize.2] at hright
  rw [hsize.1, hsize.2] at hmoved
  exact absurd (hmoved.symm.trans hright) (by decide)

end Console

end Neos
