import Neos.Console.Bounds

/-!
# Bytes written to the console

One byte keeps the console within its bounds exactly when it is harmless, so a
sequence of bytes written after `con_init` does so exactly when every one of
them is harmless in the state it finds.
-/

namespace Neos

open BitMemory

namespace Console

variable {c : Console} {code : UInt8}

/-! ## What every byte keeps -/

/-- The dimensions, the saved position and the lexer stay. -/
structure Kept (c c' : Console) : Prop where
  width : c'.width = c.width
  height : c'.height = c.height
  sx : c'.sx = c.sx
  sy : c'.sy = c.sy
  outputLexer : c'.outputLexer = c.outputLexer

theorem Kept.refl (c : Console) : Kept c c := ⟨rfl, rfl, rfl, rfl, rfl⟩

theorem Kept.trans {c₁ c₂ c₃ : Console} (h : Kept c₁ c₂) (h' : Kept c₂ c₃) : Kept c₁ c₃ :=
  ⟨h'.width.trans h.width, h'.height.trans h.height, h'.sx.trans h.sx, h'.sy.trans h.sy,
    h'.outputLexer.trans h.outputLexer⟩

theorem Kept.ite {p : Prop} [Decidable p] {c₁ c₂ c₃ : Console} (h : Kept c₁ c₂)
    (h' : Kept c₁ c₃) : Kept c₁ (if p then c₂ else c₃) := by
  split
  · exact h
  · exact h'

theorem conCursor_kept (c : Console) (nx ny : ℤ) : Kept c (c.conCursor nx ny) := by
  rw [conCursor_eq]
  exact ⟨rfl, rfl, rfl, rfl, rfl⟩

theorem conErase_kept (c : Console) (x₁ y₁ x₂ y₂ : ℤ) : Kept c (c.conErase x₁ y₁ x₂ y₂) := by
  obtain ⟨m, t, heq, -⟩ := conErase_eq c x₁ y₁ x₂ y₂
  rw [heq]
  exact ⟨rfl, rfl, rfl, rfl, rfl⟩

theorem move_kept (c : Console) (dst src : ℕ) (bytes : ℤ) : Kept c (c.move dst src bytes) :=
  ⟨rfl, rfl, rfl, rfl, rfl⟩

theorem conScroll_kept (c : Console) (offset : ℤ) : Kept c (c.conScroll offset) := by
  unfold conScroll
  apply Kept.ite
  · exact ((move_kept _ _ _ _).trans (conErase_kept _ _ _ _ _)).trans (conCursor_kept _ _ _)
  · apply Kept.ite
    · exact ((move_kept _ _ _ _).trans (conErase_kept _ _ _ _ _)).trans (conCursor_kept _ _ _)
    · exact .refl c

theorem adjust_kept (c : Console) : Kept c c.adjust := by
  have hnext : Kept c (if wrapInt (c.x + 1) ≥ c.width then c.conCursor 0 (wrapInt (c.y + 1))
      else c.conCursor (wrapInt (c.x + 1)) c.y) :=
    .ite (conCursor_kept _ _ _) (conCursor_kept _ _ _)
  apply Kept.ite
  · exact hnext.trans (conScroll_kept _ _)
  · exact hnext

theorem eraseDisplay_kept (c : Console) (n : ℤ) : Kept c (c.eraseDisplay n) := by
  unfold eraseDisplay
  repeat' apply Kept.ite
  · exact conErase_kept _ _ _ _ _
  · exact conErase_kept _ _ _ _ _
  · exact conErase_kept _ _ _ _ _
  · exact .refl c

theorem eraseLine_kept (c : Console) (n : ℤ) : Kept c (c.eraseLine n) := by
  unfold eraseLine
  repeat' apply Kept.ite
  · exact conErase_kept _ _ _ _ _
  · exact conErase_kept _ _ _ _ _
  · exact conErase_kept _ _ _ _ _
  · exact .refl c

/-- The dimensions stay, and a position is only saved when the cursor is
there. -/
structure Follows (c c' : Console) : Prop where
  width : c'.width = c.width
  height : c'.height = c.height
  saved : c'.sx = c.sx ∧ c'.sy = c.sy ∨ c'.sx = c.x ∧ c'.sy = c.y

theorem Kept.follows {c c' : Console} (h : Kept c c') : Follows c c' :=
  ⟨h.width, h.height, .inl ⟨h.sx, h.sy⟩⟩

theorem Follows.ite {p : Prop} [Decidable p] {c₁ c₂ c₃ : Console} (h : Follows c₁ c₂)
    (h' : Follows c₁ c₃) : Follows c₁ (if p then c₂ else c₃) := by
  split
  · exact h
  · exact h'

theorem conCsiExecute_follows (c : Console) (head last : ℕ) :
    Follows c (c.conCsiExecute head last) := by
  unfold conCsiExecute
  apply Follows.ite (conCursor_kept _ _ _).follows
  apply Follows.ite (conCursor_kept _ _ _).follows
  apply Follows.ite (conCursor_kept _ _ _).follows
  apply Follows.ite (conCursor_kept _ _ _).follows
  apply Follows.ite (conCursor_kept _ _ _).follows
  apply Follows.ite (conCursor_kept _ _ _).follows
  apply Follows.ite (conCursor_kept _ _ _).follows
  apply Follows.ite (eraseDisplay_kept _ _).follows
  apply Follows.ite (eraseLine_kept _ _).follows
  apply Follows.ite (conScroll_kept _ _).follows
  apply Follows.ite (conScroll_kept _ _).follows
  apply Follows.ite
  · exact ⟨rfl, rfl, .inr ⟨rfl, rfl⟩⟩
  apply Follows.ite (conCursor_kept _ _ _).follows
  refine Follows.ite ?_ (Kept.refl c).follows
  rw [conSgrExecute_recolored c head last]
  exact ⟨rfl, rfl, .inl ⟨rfl, rfl⟩⟩

theorem conExecute_follows (c : Console) : Follows c c.conExecute :=
  .ite (conCsiExecute_follows _ _ _) (Kept.refl c).follows

/-- With the cursor on the screen, everything that follows is framed. -/
theorem Framed.follow {c c' : Console} (hc : c.Framed) (hs : c.OnScreen) (h : Follows c c') :
    c'.Framed := by
  obtain ⟨hw₁, hw₂, hh₁, hh₂, hsx₀, hsx, hsy₀, hsy⟩ := hc
  obtain ⟨hx₀, hx, hy₀, hy⟩ := hs
  obtain ⟨hwidth, hheight, hsaved⟩ := h
  rw [← hwidth] at hw₁ hw₂ hsx hx
  rw [← hheight] at hh₁ hh₂ hsy hy
  rcases hsaved with ⟨hsx', hsy'⟩ | ⟨hsx', hsy'⟩
  · rw [← hsx'] at hsx₀ hsx
    rw [← hsy'] at hsy₀ hsy
    exact ⟨hw₁, hw₂, hh₁, hh₂, hsx₀, hsx, hsy₀, hsy⟩
  · rw [← hsx'] at hx₀ hx
    rw [← hsy'] at hy₀ hy
    exact ⟨hw₁, hw₂, hh₁, hh₂, hx₀, hx, hy₀, hy⟩

/-- Outside a sequence nothing is asked of the collected bytes. -/
theorem Framed.ready {c : Console} (hc : c.Framed) (h₁ : c.outputLexer ≠ .csi)
    (h₂ : c.outputLexer ≠ .untilSt) : c.Ready :=
  { hc with
    introducer := fun h => absurd h h₁
    room := fun h => absurd h (not_or.mpr ⟨h₁, h₂⟩) }

/-- Everything collected so far leaves the console ready for another byte. -/
theorem Framed.collect (hc : c.Framed) {lexer : Lexer} {bytes : List UInt8}
    (hintro : lexer = .csi → bytes.getD 0 0 = ansiCsi)
    (hroom : 0 < bytes.length ∧ bytes.length < consoleMaxAnsiSequence) :
    Ready { c with outputLexer := lexer, sequence := bytes } :=
  { hc with
    introducer := hintro
    room := fun _ => hroom }

theorem conLexerInitial_ready (hc : c.Framed) (hs : c.OnScreen) (hlexer : c.outputLexer = .initial)
    (code : UInt8) : (c.conLexerInitial code).Ready := by
  have hkept : ∀ c', Kept c c' → c'.Ready := by
    intro c' h
    apply (hc.follow hs h.follows).ready <;>
    · rw [h.outputLexer, hlexer]
      decide
  have hprint : Kept c ((c.poke (c.conAt c.x c.y) code).poke (c.conAt c.x c.y + 1) c.conAttr) :=
    ⟨rfl, rfl, rfl, rfl, rfl⟩
  unfold conLexerInitial
  split
  · exact hkept _ (.ite (conCursor_kept _ _ _) (.refl c))
  split
  · exact hkept _ (conCursor_kept _ _ _)
  split
  · exact hkept _ (.ite ((conCursor_kept _ _ _).trans (conScroll_kept _ _)) (conCursor_kept _ _ _))
  split
  · exact Framed.ready { hc with } nofun nofun
  split
  · exact hc.collect (fun _ => rfl) (by decide)
  split
  · exact hc.collect (fun _ => rfl) (by decide)
  split
  · exact hkept _ ((conCursor_kept _ _ _).trans (adjust_kept _))
  · exact hkept _ (hprint.trans (adjust_kept _))

theorem conLexerEscape_ready (hc : c.Framed) (hs : c.OnScreen) (code : UInt8) :
    (c.conLexerEscape code).Ready := by
  have hone : 0 < [code].length ∧ [code].length < consoleMaxAnsiSequence :=
    ⟨Nat.one_pos, show 1 < consoleMaxAnsiSequence by decide⟩
  unfold conLexerEscape
  simp only []
  split
  · rename_i hcode
    exact hc.collect (fun _ => hcode) hone
  split
  · exact hc.collect nofun hone
  split
  · exact Framed.ready { hc with } nofun nofun
  split
  · exact Framed.ready { hc with } nofun nofun
  split
  · refine Framed.ready ?_ nofun nofun
    exact hc.follow hs ⟨rfl, rfl, .inr ⟨rfl, rfl⟩⟩
  split
  · rw [conCursor_eq]
    exact Framed.ready { hc with } nofun nofun
  · exact Framed.ready { hc with } nofun nofun

/-- Collecting one more byte. -/
theorem Ready.append (hc : c.Ready) (hlexer : c.outputLexer = .csi ∨ c.outputLexer = .untilSt)
    (hroom : (c.sequence ++ [code]).length < consoleMaxAnsiSequence) :
    Ready { c with sequence := c.sequence ++ [code] } := by
  obtain ⟨hpos, -⟩ := hc.room hlexer
  apply hc.toFramed.collect
  · intro hcsi
    rw [List.getD_append _ _ _ _ hpos]
    exact hc.introducer hcsi
  · exact ⟨by rw [List.length_append]; omega, hroom⟩

theorem conLexerCsi_ready (hc : c.Ready) (hs : c.OnScreen) (hlexer : c.outputLexer = .csi)
    (code : UInt8) : (c.conLexerCsi code).Ready := by
  have hfollow := conExecute_follows { c with sequence := c.sequence ++ [code] }
  unfold conLexerCsi
  simp only []
  split
  · refine Framed.ready ?_ nofun nofun
    exact hc.toFramed.follow hs ⟨hfollow.width, hfollow.height, hfollow.saved⟩
  split
  · exact Framed.ready { hc.toFramed with } nofun nofun
  · rename_i hshort
    exact hc.append (.inl hlexer) (not_le.mp hshort)

theorem conLexerUntilSt_ready (hc : c.Ready) (hs : c.OnScreen) (hlexer : c.outputLexer = .untilSt)
    (code : UInt8) : (c.conLexerUntilSt code).Ready := by
  have hfollow := conExecute_follows { c with sequence := c.sequence ++ [code] }
  unfold conLexerUntilSt
  simp only []
  split
  · refine Framed.ready ?_ nofun nofun
    exact hc.toFramed.follow hs ⟨hfollow.width, hfollow.height, hfollow.saved⟩
  split
  · exact Framed.ready { hc.toFramed with } nofun nofun
  · rename_i hshort
    exact hc.append (.inr hlexer) (not_le.mp hshort)

/-- Whatever the byte, the console is ready for the next one. -/
theorem conWrite_ready (hc : c.Ready) (hs : c.OnScreen) (code : UInt8) :
    (c.conWrite code).Ready := by
  unfold conWrite
  split
  · rename_i hlexer
    exact conLexerInitial_ready hc.toFramed hs hlexer code
  · exact conLexerEscape_ready hc.toFramed hs code
  · rename_i hlexer
    exact conLexerCsi_ready hc hs hlexer code
  · rename_i hlexer
    exact conLexerUntilSt_ready hc hs hlexer code

/-! ## Which bytes keep the bounds -/

theorem conAt_mem_screen (hs : c.OnScreen) {j : ℕ} (hj : j < 2) :
    wrap (c.conAt c.x c.y + j) ∈ c.screen := by
  obtain ⟨hx₀, hx, hy₀, hy⟩ := hs
  have hrows : (c.y + 1) * c.width ≤ c.height * c.width :=
    Int.mul_le_mul_of_nonneg_right hy (by omega)
  have hrow : (c.y + 1) * c.width = c.y * c.width + c.width := by ring
  have habove : 0 ≤ c.y * c.width := Int.mul_nonneg hy₀ (by omega)
  have harea : c.width * c.height = c.height * c.width := mul_comm _ _
  rw [conAt_eq]
  exact mem_screen (by omega) (by omega)

/-- Printing or skipping a cell and going on to the next one. -/
theorem adjust_bounded_iff (hc : c.Framed) (hx₀ : -2 ^ 31 ≤ c.x) (hx : c.x < 2 ^ 31 - 1)
    (hy₀ : 0 ≤ c.y) (hy : c.y < c.height) (ht : ∀ a ∈ c.touched, a ∈ c.screen) :
    c.adjust.Bounded ↔ -1 ≤ c.x := by
  obtain ⟨m, t, nx, ny, heq, hdrawn, hnx, hiff, hny₀, hny⟩ := adjust_eq hc hx₀ hx hy₀ hy
  rw [heq]
  constructor
  · intro h
    exact hiff.mp h.cursor.x_nonneg
  · intro h
    exact ⟨⟨hiff.mpr h, hnx, hny₀, hny⟩, fun a ha => (hdrawn a ha).elim (ht a) id⟩

/-- The tab stop at or after the cursor overflows within three columns of the
largest `int`. -/
theorem conNextTabStop_eq (hx₀ : 0 ≤ c.x) (hx : c.x < 2 ^ 31 - 1) :
    (c.x + 3 < 2 ^ 31 → 0 ≤ c.conNextTabStop ∧ c.conNextTabStop < 2 ^ 31 - 1) ∧
      (2 ^ 31 ≤ c.x + 3 → c.conNextTabStop = -2 ^ 31) := by
  unfold conNextTabStop consoleTabDistance
  rw [Int.tdiv_eq_ediv_of_nonneg hx₀, Int.tmod_eq_emod_of_nonneg hx₀, wrapInt_eq]
  constructor
  · intro h
    split <;> split <;> omega
  · intro h
    split <;> split <;> omega

/-- A tab keeps the bounds unless its stop overflows. -/
theorem tab_bounded_iff (hc : c.Framed) (hb : c.Bounded) :
    (c.conCursor c.conNextTabStop c.y).adjust.Bounded ↔ c.x + 3 < 2 ^ 31 := by
  obtain ⟨⟨hx₀, hx, hy₀, hy⟩, ht⟩ := hb
  have hw := hc.width_lt
  obtain ⟨hfits, hover⟩ := conNextTabStop_eq hx₀ (show c.x < 2 ^ 31 - 1 by omega)
  have hstop : -2 ^ 31 ≤ c.conNextTabStop ∧ c.conNextTabStop < 2 ^ 31 - 1 := by
    rcases lt_or_ge (c.x + 3) (2 ^ 31) with h | h
    · have hin := hfits h
      omega
    · have hout := hover h
      omega
  have hskip := adjust_bounded_iff (c := { c with x := c.conNextTabStop }) { hc with }
    hstop.1 hstop.2 hy₀ hy ht
  rw [conCursor_eq, hskip]
  show -1 ≤ c.conNextTabStop ↔ _
  rcases lt_or_ge (c.x + 3) (2 ^ 31) with h | h
  · have hin := hfits h
    omega
  · have hout := hover h
    omega

/-- Printing a character keeps the bounds. -/
theorem print_bounded (hc : c.Framed) (hb : c.Bounded) (code : UInt8) :
    ((c.poke (c.conAt c.x c.y) code).poke (c.conAt c.x c.y + 1) c.conAttr).adjust.Bounded := by
  obtain ⟨⟨hx₀, hx, hy₀, hy⟩, ht⟩ := id hb
  have hw := hc.width_lt
  refine (adjust_bounded_iff
    (c := (c.poke (c.conAt c.x c.y) code).poke (c.conAt c.x c.y + 1) c.conAttr) { hc with }
    (show -2 ^ 31 ≤ c.x by omega) (show c.x < 2 ^ 31 - 1 by omega) hy₀ hy ?_).mpr
    (show -1 ≤ c.x by omega)
  intro a ha
  rcases List.mem_cons.mp ha with rfl | ha
  · exact conAt_mem_screen hb.cursor (by decide)
  rcases List.mem_cons.mp ha with rfl | ha
  · exact conAt_mem_screen (j := 0) hb.cursor (by decide)
  · exact ht a ha

/-- A line feed keeps the bounds. -/
theorem lineFeed_bounded (hc : c.Framed) (hb : c.Bounded) :
    (c.conLexerInitial ansiLineFeed).Bounded := by
  obtain ⟨⟨hx₀, hx, hy₀, hy⟩, ht⟩ := id hb
  have hw := hc.width_pos
  have hh := hc.height_lt
  have hny : wrapInt (c.y + 1) = c.y + 1 := wrapInt_of_fits (by omega) (by omega)
  unfold conLexerInitial
  rw [if_neg (by decide), if_neg (by decide), if_pos rfl]
  simp only [hny, conCursor_eq]
  split
  · obtain ⟨m, t, ny, hscroll, hdrawn, hny₀, hny₁⟩ :=
      conScroll_up (c := { c with x := 0, y := c.y + 1 }) { hc with }
        (show 0 ≤ c.y + 1 by omega) (show c.y + 1 ≤ c.height by omega)
        (show (0 : ℤ) < 1 by decide)
    rw [hscroll]
    exact ⟨⟨le_refl 0, hw, hny₀, hny₁⟩, hb.drawn hdrawn⟩
  · rename_i hroom
    exact ⟨⟨le_refl 0, hw, show 0 ≤ c.y + 1 by omega, not_le.mp hroom⟩, ht⟩

theorem conLexerInitial_tab (c : Console) :
    c.conLexerInitial ansiTab = (c.conCursor c.conNextTabStop c.y).adjust := by
  unfold conLexerInitial
  rw [if_neg (by decide), if_neg (by decide), if_neg (by decide), if_neg (by decide),
    if_neg (by simp +decide), if_neg (by simp +decide), if_pos rfl]

theorem conLexerInitial_bounded_iff (hc : c.Framed) (hb : c.Bounded) (code : UInt8) :
    (c.conLexerInitial code).Bounded ↔ (code = ansiTab → c.x + 3 < 2 ^ 31) := by
  obtain ⟨⟨hx₀, hx, hy₀, hy⟩, ht⟩ := id hb
  have hw := hc.width_pos
  by_cases htab : code = ansiTab
  · rw [htab, conLexerInitial_tab, tab_bounded_iff hc hb]
    exact ⟨fun h _ => h, fun h => h rfl⟩
  · refine iff_of_true ?_ (fun h => absurd h htab)
    by_cases hfeed : code = ansiLineFeed
    · rw [hfeed]
      exact lineFeed_bounded hc hb
    unfold conLexerInitial
    rw [if_neg hfeed, if_neg htab]
    split
    · split
      · exact (hb.cursor_iff _ _).mpr ⟨⟨by omega, by omega⟩, hy₀, hy⟩
      · exact hb
    split
    · exact (hb.cursor_iff _ _).mpr ⟨⟨le_refl 0, hw⟩, hy₀, hy⟩
    split
    · exact ⟨{ hb.cursor with }, ht⟩
    split
    · exact ⟨{ hb.cursor with }, ht⟩
    split
    · exact ⟨{ hb.cursor with }, ht⟩
    · exact print_bounded hc hb code

theorem conLexerEscape_bounded (hc : c.Framed) (hb : c.Bounded) (code : UInt8) :
    (c.conLexerEscape code).Bounded := by
  obtain ⟨hcursor, ht⟩ := id hb
  unfold conLexerEscape
  simp only []
  split
  · exact ⟨{ hcursor with }, ht⟩
  split
  · exact ⟨{ hcursor with }, ht⟩
  split
  · exact ⟨{ hcursor with }, ht⟩
  split
  · exact ⟨{ hcursor with }, ht⟩
  split
  · exact ⟨{ hcursor with }, ht⟩
  split
  · rw [conCursor_eq]
    exact ⟨⟨hc.sx_nonneg, hc.sx_lt, hc.sy_nonneg, hc.sy_lt⟩, ht⟩
  · exact ⟨{ hcursor with }, ht⟩

theorem getD_append_last (bytes : List UInt8) (code : UInt8) :
    (bytes ++ [code]).getD ((bytes ++ [code]).length - 1) 0 = code := by
  have hlast : (bytes ++ [code]).length - 1 = bytes.length := by simp
  rw [hlast, List.getD_append_right _ _ _ _ le_rfl, Nat.sub_self]
  rfl

/-- The bounds do not depend on the lexer and the bytes collected. -/
theorem Bounded.collected (hb : c.Bounded) (lexer : Lexer) (bytes : List UInt8) :
    Bounded { c with outputLexer := lexer, sequence := bytes } :=
  ⟨{ hb.cursor with }, hb.touched⟩

theorem bounded_initial_iff :
    Bounded { c with outputLexer := .initial } ↔ c.Bounded :=
  ⟨fun h => ⟨{ h.cursor with }, h.touched⟩, fun h => ⟨{ h.cursor with }, h.touched⟩⟩

theorem conLexerCsi_bounded_iff (hc : c.Ready) (hb : c.Bounded) (hlexer : c.outputLexer = .csi)
    (code : UInt8) :
    (c.conLexerCsi code).Bounded ↔
      c.HarmlessParameter code (parameter (c.sequence ++ [code]) 1) := by
  obtain ⟨hpos, -⟩ := hc.room (.inl hlexer)
  have hintro : (c.sequence ++ [code]).getD 0 0 = ansiCsi := by
    rw [List.getD_append _ _ _ _ hpos]
    exact hc.introducer hlexer
  have hexecute := conCsiExecute_bounded_iff (c := { c with sequence := c.sequence ++ [code] })
    { hc.toFramed with } (hb.collected _ _)
  rw [getD_append_last] at hexecute
  unfold conLexerCsi
  simp only []
  split
  · rw [bounded_initial_iff, conExecute, if_pos hintro, hexecute]
    exact ⟨fun h => { h with }, fun h => { h with }⟩
  · rename_i hmore
    have hother : c.HarmlessParameter code (parameter (c.sequence ++ [code]) 1) := by
      apply harmlessParameter_of_other
      all_goals
        rintro rfl
        exact hmore (by decide)
    split
    · exact iff_of_true (hb.collected _ _) hother
    · exact iff_of_true (hb.collected _ _) hother

theorem conLexerUntilSt_bounded (hc : c.Framed) (hb : c.Bounded) (code : UInt8) :
    (c.conLexerUntilSt code).Bounded := by
  have hexecute := conCsiExecute_bounded_iff (c := { c with sequence := c.sequence ++ [code] })
    { hc with } (hb.collected _ _)
  rw [getD_append_last] at hexecute
  unfold conLexerUntilSt
  simp only []
  split
  · rename_i hst
    rw [bounded_initial_iff, conExecute]
    split
    · apply hexecute.mpr
      rw [hst.1]
      apply harmlessParameter_of_other <;> decide
    · exact hb.collected _ _
  split
  · exact hb.collected _ _
  · exact hb.collected _ _

/-- A byte keeps the bounds exactly when it is harmless. -/
theorem conWrite_bounded_iff (hc : c.Ready) (hb : c.Bounded) (code : UInt8) :
    (c.conWrite code).Bounded ↔ c.Harmless code := by
  unfold conWrite
  rcases hlexer : c.outputLexer with _ | _ | _ | _
  · rw [conLexerInitial_bounded_iff hc.toFramed hb]
    exact ⟨fun h => ⟨fun _ => h, fun h' => absurd (hlexer.symm.trans h') nofun⟩,
      fun h => h.tab hlexer⟩
  · apply iff_of_true (conLexerEscape_bounded hc.toFramed hb code)
    exact ⟨fun h => absurd (hlexer.symm.trans h) nofun, fun h => absurd (hlexer.symm.trans h) nofun⟩
  · rw [conLexerCsi_bounded_iff hc hb hlexer]
    exact ⟨fun h => ⟨fun h' => absurd (hlexer.symm.trans h') nofun, fun _ => h⟩,
      fun h => h.sequence hlexer⟩
  · apply iff_of_true (conLexerUntilSt_bounded hc.toFramed hb code)
    exact ⟨fun h => absurd (hlexer.symm.trans h) nofun, fun h => absurd (hlexer.symm.trans h) nofun⟩

/-! ## Whole runs -/

/-- The console before `con_init` clears the screen. -/
def fresh (c : Console) (width height : ℤ) : Console :=
  { c with
    touched := []
    outputLexer := .initial
    sequence := []
    invert := false
    attr := consoleDefaultAttribute
    width := width
    height := height
    x := 0
    y := 0
    shortcuts := true
    sa := consoleDefaultAttribute
    sx := 0
    sy := 0 }

theorem conInit_eq (c : Console) (width height : ℤ) :
    c.conInit width height = (c.fresh width height).conErase 0 0 (width - 1) (height - 1) := by
  unfold conInit
  simp only [conCursor_eq]
  exact rfl

/-- `con_init` leaves the cursor in the first cell, and has accessed only the
screen. -/
theorem conInit_spec (c : Console) {width height : ℤ} (hw₁ : 1 ≤ width) (hw₂ : width < 2 ^ 31)
    (hh₁ : 1 ≤ height) (hh₂ : height < 2 ^ 31) :
    (c.conInit width height).Ready ∧ (c.conInit width height).Bounded := by
  have hframed : (c.fresh width height).Framed :=
    ⟨hw₁, hw₂, hh₁, hh₂, le_refl 0, hw₁, le_refl 0, hh₁⟩
  have hbounded : (c.fresh width height).Bounded :=
    ⟨⟨le_refl 0, hw₁, le_refl 0, hh₁⟩, nofun⟩
  have hrows : 0 ≤ (height - 1) * width := Int.mul_nonneg (by omega) (by omega)
  have hkept := conErase_kept (c.fresh width height) 0 0 (width - 1) (height - 1)
  rw [conInit_eq]
  constructor
  · apply (hframed.follow hbounded.cursor hkept.follows).ready
    · rw [hkept.outputLexer]
      exact nofun
    · rw [hkept.outputLexer]
      exact nofun
  · apply conErase_bounded hbounded
    · show 0 ≤ 0 + 0 * width
      omega
    · show 0 + 0 * width ≤ width - 1 + (height - 1) * width
      omega
    · show width - 1 < width
      omega
    · show height - 1 < height
      omega
    · show 0 ≤ width
      omega

theorem writeAll_append (c : Console) (bytes : List UInt8) (code : UInt8) :
    c.writeAll (bytes ++ [code]) = (c.writeAll bytes).conWrite code := by
  rw [writeAll, List.foldl_append]
  rfl

/-- As long as the bounds were kept, the console is ready for the next byte. -/
theorem ready_of_bounded (hc : c.Ready) :
    ∀ bytes : List UInt8, (∀ p, p <+: bytes → (c.writeAll p).Bounded) →
      (c.writeAll bytes).Ready := by
  intro bytes
  induction bytes using List.reverseRecOn with
  | nil => exact fun _ => hc
  | append_singleton bytes code ih =>
      intro h
      have hbefore : bytes <+: bytes ++ [code] := List.prefix_append _ _
      have hready := ih (fun p hp => h p (hp.trans hbefore))
      rw [writeAll_append]
      exact conWrite_ready hready (h bytes hbefore).cursor code

/-- After `con_init` on a screen of any size, the cursor stays on the screen and
only cells of the screen are accessed, after every byte, exactly when every byte
is harmless in the state it finds. -/
theorem bounded_iff_harmless (c : Console) {width height : ℤ} (hw₁ : 1 ≤ width)
    (hw₂ : width < 2 ^ 31) (hh₁ : 1 ≤ height) (hh₂ : height < 2 ^ 31) (bytes : List UInt8) :
    (∀ p, p <+: bytes → ((c.conInit width height).writeAll p).Bounded) ↔
      ∀ p code, p ++ [code] <+: bytes →
        ((c.conInit width height).writeAll p).Harmless code := by
  obtain ⟨hready, hbounded⟩ := c.conInit_spec hw₁ hw₂ hh₁ hh₂
  constructor
  · intro h p code hp
    have hbefore : p <+: bytes := (List.prefix_append _ _).trans hp
    have hp' := ready_of_bounded hready p (fun q hq => h q (hq.trans hbefore))
    have hnext := h (p ++ [code]) hp
    rw [writeAll_append] at hnext
    exact (conWrite_bounded_iff hp' (h p hbefore) code).mp hnext
  · intro h
    have hboth : ∀ p, p <+: bytes → ((c.conInit width height).writeAll p).Ready ∧
        ((c.conInit width height).writeAll p).Bounded := by
      intro p
      induction p using List.reverseRecOn with
      | nil => exact fun _ => ⟨hready, hbounded⟩
      | append_singleton p code ih =>
          intro hp
          obtain ⟨hp', hpb⟩ := ih ((List.prefix_append _ _).trans hp)
          rw [writeAll_append]
          exact ⟨conWrite_ready hp' hpb.cursor code,
            (conWrite_bounded_iff hp' hpb code).mpr (h p code hp)⟩
    exact fun p hp => (hboth p hp).2

/-- A console whose static data is zero, as before `con_init`. -/
def blank : Console := ⟨fun _ => 0, [], .initial, [], false, 0, 0, 0, 0, 0, false, 0, 0, 0⟩

/-- The bytes `ESC [ 24 B ESC [ 4294967295 A`: the second parameter is read as
`-1`. -/
def upByMinusOne : List UInt8 :=
  [0x1B, 0x5B, 0x32, 0x34, 0x42, 0x1B, 0x5B, 0x34, 0x32, 0x39, 0x34, 0x39, 0x36, 0x37, 0x32, 0x39,
    0x35, 0x41]

/-- The text screen, on these bytes. -/
theorem bounded_iff_harmless_textMode :
    (∀ p, p <+: upByMinusOne → ((blank.conInit 80 25).writeAll p).Bounded) ↔
      ∀ p code, p ++ [code] <+: upByMinusOne →
        ((blank.conInit 80 25).writeAll p).Harmless code :=
  bounded_iff_harmless blank (by decide) (by decide) (by decide) (by decide) upByMinusOne

/-- From the last row of the text screen, moving up by minus one row leads to a
row below the screen. -/
theorem cursor_below_screen :
    ¬ ∀ p, p <+: upByMinusOne → ((blank.conInit 80 25).writeAll p).Bounded := by
  intro h
  have hrow : ((blank.conInit 80 25).writeAll upByMinusOne).y = 25 := by decide +kernel
  have hheight : ((blank.conInit 80 25).writeAll upByMinusOne).height = 25 := by decide +kernel
  have hlt := (h upByMinusOne List.prefix_rfl).cursor.y_lt
  rw [hrow, hheight] at hlt
  exact lt_irrefl _ hlt

end Console

end Neos
