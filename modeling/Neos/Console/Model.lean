import Neos.Kernel.CLib

/-!
# The text console of `console.c`

`con_write` feeds one byte to a lexer that either prints it or collects an
escape sequence and executes it.  The screen is the array of 16-bit cells at
`0xB8000`; every byte address that the console reads or writes through a screen
pointer is recorded in `touched`.  The cursor position sent to the hardware by
`cur_goto` is not part of the state.
-/

namespace Neos

open BitMemory

namespace Console

/-! ## `ansi.h` -/

/-- `ANSI_BACKSPACE`. -/
def ansiBackspace : UInt8 := 0x08

/-- `ANSI_TAB`. -/
def ansiTab : UInt8 := 0x09

/-- `ANSI_LINE_FEED`. -/
def ansiLineFeed : UInt8 := 0x0A

/-- `ANSI_CARRIAGE_RETURN`. -/
def ansiCarriageReturn : UInt8 := 0x0D

/-- `ANSI_ESCAPE`. -/
def ansiEscape : UInt8 := 0x1B

/-- `ANSI_ESC_DCS`. -/
def ansiEscDcs : UInt8 := 0x90

/-- `ANSI_ESC_CSI`. -/
def ansiEscCsi : UInt8 := 0x9B

/-- `ANSI_ESC_OSC`. -/
def ansiEscOsc : UInt8 := 0x9D

/-- `ANSI_ST`. -/
def ansiSt : UInt8 := '\\'.toUInt8

/-- `ANSI_CSI`. -/
def ansiCsi : UInt8 := '['.toUInt8

/-- `ANSI_OSC`. -/
def ansiOsc : UInt8 := ']'.toUInt8

/-- `ANSI_SOS`. -/
def ansiSos : UInt8 := 'X'.toUInt8

/-- `ANSI_PM`. -/
def ansiPm : UInt8 := '^'.toUInt8

/-- `ANSI_APC`. -/
def ansiApc : UInt8 := '_'.toUInt8

/-- `ANSI_DCS`. -/
def ansiDcs : UInt8 := 'P'.toUInt8

/-- `ANSI_DECSC`. -/
def ansiDecsc : UInt8 := '7'.toUInt8

/-- `ANSI_DECRC`. -/
def ansiDecrc : UInt8 := '8'.toUInt8

/-- `ANSI_NEOEM`. -/
def ansiNeoem : UInt8 := '<'.toUInt8

/-- `ANSI_NEOAM`. -/
def ansiNeoam : UInt8 := '>'.toUInt8

/-- `ANSI_CSI_CUU`. -/
def ansiCsiCuu : UInt8 := 'A'.toUInt8

/-- `ANSI_CSI_CUD`. -/
def ansiCsiCud : UInt8 := 'B'.toUInt8

/-- `ANSI_CSI_CUF`. -/
def ansiCsiCuf : UInt8 := 'C'.toUInt8

/-- `ANSI_CSI_CUB`. -/
def ansiCsiCub : UInt8 := 'D'.toUInt8

/-- `ANSI_CSI_CNL`. -/
def ansiCsiCnl : UInt8 := 'E'.toUInt8

/-- `ANSI_CSI_CPL`. -/
def ansiCsiCpl : UInt8 := 'F'.toUInt8

/-- `ANSI_CSI_CUP`. -/
def ansiCsiCup : UInt8 := 'H'.toUInt8

/-- `ANSI_CSI_ED`. -/
def ansiCsiEd : UInt8 := 'J'.toUInt8

/-- `ANSI_CSI_EL`. -/
def ansiCsiEl : UInt8 := 'K'.toUInt8

/-- `ANSI_CSI_SU`. -/
def ansiCsiSu : UInt8 := 'S'.toUInt8

/-- `ANSI_CSI_SD`. -/
def ansiCsiSd : UInt8 := 'T'.toUInt8

/-- `ANSI_CSI_HVP`. -/
def ansiCsiHvp : UInt8 := 'f'.toUInt8

/-- `ANSI_CSI_SGR`. -/
def ansiCsiSgr : UInt8 := 'm'.toUInt8

/-- `ANSI_CSI_SCP`. -/
def ansiCsiScp : UInt8 := 's'.toUInt8

/-- `ANSI_CSI_RCP`. -/
def ansiCsiRcp : UInt8 := 'u'.toUInt8

/-- `ANSI_CSI_FINAL`. -/
def ansiCsiFinal (byte : UInt8) : Prop := 0x40 ≤ byte ∧ byte ≤ 0x7E

instance (byte : UInt8) : Decidable (ansiCsiFinal byte) :=
  inferInstanceAs (Decidable (_ ∧ _))

/-- `CONSOLE_MAX_ANSI_SEQUENCE`. -/
def consoleMaxAnsiSequence : ℕ := 64

/-- `CONSOLE_DEFAULT_ATTRIBUTE`. -/
def consoleDefaultAttribute : UInt8 := 0b00000111

/-- `CONSOLE_TAB_DISTANCE`. -/
def consoleTabDistance : ℤ := 4

/-- `AF`, the foreground bits of an attribute. -/
def attributeForeground : UInt8 := 0b00001111

/-- `AF_I`. -/
def attributeForegroundBold : UInt8 := 0b00001000

/-- `AF_C`. -/
def attributeForegroundColor : UInt8 := 0b00000111

/-- `AB`, the background bits of an attribute. -/
def attributeBackground : UInt8 := 0b11110000

/-- `AB_I`. -/
def attributeBackgroundBold : UInt8 := 0b10000000

/-- `AB_C`. -/
def attributeBackgroundColor : UInt8 := 0b01110000

/-! ## The state -/

/-- The function `output_lexer` points to. -/
inductive Lexer
  | initial
  | escape
  | csi
  | untilSt
deriving DecidableEq

end Console

/-- The static data of the console, the memory, and the addresses accessed
through screen pointers since `con_init`.  `sequence` holds the first `length`
bytes of the collected sequence. -/
structure Console where
  memory : Memory
  touched : List ℕ
  outputLexer : Console.Lexer
  sequence : List UInt8
  invert : Bool
  attr : UInt8
  width : ℤ
  height : ℤ
  x : ℤ
  y : ℤ
  shortcuts : Bool
  sa : UInt8
  sx : ℤ
  sy : ℤ

namespace Console

/-- Store one byte through a screen pointer. -/
def poke (c : Console) (address : ℕ) (value : UInt8) : Console :=
  { c with
    memory := store c.memory address value.toNat
    touched := wrap address :: c.touched }

/-- `memmove` between two screen pointers, which accesses nothing when they are
equal. -/
def move (c : Console) (dst src : ℕ) (bytes : ℤ) : Console :=
  { c with
    memory := memmove c.memory dst src bytes
    touched :=
      if src = dst then c.touched
      else
        (List.range bytes.toNat).map (fun j => wrap (dst + j)) ++
          (List.range bytes.toNat).map (fun j => wrap (src + j)) ++ c.touched }

/-- `con_cursor`. -/
def conCursor (c : Console) (nx ny : ℤ) : Console :=
  if nx ≠ c.x ∨ ny ≠ c.y then { c with x := nx, y := ny } else c

/-- `con_next_tab_stop`. -/
def conNextTabStop (c : Console) : ℤ :=
  wrapInt (c.x.tdiv consoleTabDistance * consoleTabDistance +
    if c.x.tmod consoleTabDistance ≠ 0 then consoleTabDistance else 0)

/-- `con_attr`. -/
def conAttr (c : Console) : UInt8 :=
  if c.invert = false then c.attr
  else (((0x0F : UInt8) &&& c.attr) <<< 4) ||| (c.attr >>> 4)

/-- `con_at`: the address of a cell. -/
def conAt (c : Console) (x y : ℤ) : ℕ :=
  toWord (0xB8000 + 2 * wrapInt (x + y * c.width))

/-- The loop of `con_erase`. -/
def eraseLoop (stop : ℕ) : ℕ → ℕ → Console → Console
  | 0, _, c => c
  | fuel + 1, glyph, c =>
      if glyph < stop then
        eraseLoop stop fuel (wrap (glyph + 2))
          ((c.poke glyph 0).poke (glyph + 1) consoleDefaultAttribute)
      else c

/-- `con_erase`. -/
def conErase (c : Console) (x₁ y₁ x₂ y₂ : ℤ) : Console :=
  let glyph := c.conAt x₁ y₁
  let stop := c.conAt x₂ y₂
  eraseLoop stop (stop - glyph) glyph c

/-- `con_scroll`. -/
def conScroll (c : Console) (offset : ℤ) : Console :=
  let sign := sgn offset
  let lines := cMin (cAbs offset) c.height
  let last := c.height - 1
  let row := wrapInt (c.width * 2)
  let moves := wrapInt (c.height - lines)
  let clears := wrapInt (c.height - moves)
  if sign = -1 then
    let c := c.move (c.conAt 0 lines) (c.conAt 0 0) (wrapInt (moves * row))
    let c := c.conErase 0 0 0 clears
    let ny := wrapInt (c.y + lines)
    c.conCursor c.x (if ny > last then last else ny)
  else if sign = 1 then
    let c := c.move (c.conAt 0 0) (c.conAt 0 lines) (wrapInt (moves * row))
    let c := c.conErase 0 moves 0 (wrapInt (moves + clears))
    let ny := wrapInt (c.y - lines)
    c.conCursor c.x (if ny < 0 then 0 else ny)
  else c

/-! ## Reading the collected sequence -/

/-- `con_next_char`; also the new value of `head`. -/
def conNextChar (sequence : List UInt8) (head last : ℕ) : UInt8 × ℕ :=
  if head > last then (0, head) else (sequence.getD head 0, head + 1)

/-- `(next >= '0') && (next <= '9')`. -/
def isDigit (next : UInt8) : Bool := '0'.toUInt8 ≤ next ∧ next ≤ '9'.toUInt8

/-- The loop of `con_next_int`. -/
def nextIntLoop (sequence : List UInt8) (last : ℕ) (fallback : ℤ) :
    ℕ → Bool → ℤ → ℕ → ℤ × ℕ
  | 0, first, accumulator, head => (if first then fallback else accumulator, head)
  | fuel + 1, first, accumulator, head =>
      let next := conNextChar sequence head last
      if isDigit next.1 then
        nextIntLoop sequence last fallback fuel false
          (wrapInt (accumulator * 10 + (next.1.toNat - 48))) next.2
      else (if first then fallback else accumulator, next.2 - 1)

/-- `con_next_int`; also the new value of `head`. -/
def conNextInt (sequence : List UInt8) (head last : ℕ) (fallback : ℤ) : ℤ × ℕ :=
  nextIntLoop sequence last fallback (sequence.length + 1) true 0 head

/-- `con_ansi_to_vga`. -/
def conAnsiToVga (index : ℤ) : UInt8 :=
  let color := UInt8.ofNat (index % 8).toNat
  (color &&& (0b010 : UInt8)) ||| ((color &&& (0b001 : UInt8)) <<< 2) |||
    ((color &&& (0b100 : UInt8)) >>> 2)

/-- `con_srg_apply`. -/
def conSrgApply (c : Console) (code : ℤ) : Console :=
  if code = 0 then { c with attr := consoleDefaultAttribute }
  else if code = 1 then { c with attr := c.attr ||| attributeForegroundBold }
  else if code = 22 then { c with attr := c.attr &&& ~~~attributeForegroundBold }
  else if code = 7 then { c with invert := true }
  else if code = 27 then { c with invert := false }
  else if 30 ≤ code ∧ code ≤ 37 then
    { c with
      attr := (c.attr &&& ~~~attributeForegroundColor) ||| conAnsiToVga (code - 30) }
  else if code = 39 then
    { c with
      attr := (c.attr &&& ~~~attributeForegroundColor) |||
        (consoleDefaultAttribute &&& attributeForegroundColor) }
  else if 40 ≤ code ∧ code ≤ 47 then
    { c with
      attr := (c.attr &&& ~~~attributeBackgroundColor) |||
        (conAnsiToVga (code - 40) <<< 4) }
  else if code = 49 then
    { c with attr := c.attr &&& ~~~attributeBackgroundColor }
  else if 90 ≤ code ∧ code ≤ 97 then
    { c with
      attr := (c.attr &&& ~~~attributeForeground) ||| conAnsiToVga (code - 90) |||
        attributeForegroundBold }
  else if 100 ≤ code ∧ code ≤ 107 then
    { c with
      attr := (c.attr &&& ~~~attributeBackground) |||
        (conAnsiToVga (code - 100) <<< 4) ||| attributeBackgroundBold }
  else c

/-- The loop of `con_sgr_execute`; also whether no parameter was applied. -/
def sgrLoop (last : ℕ) : ℕ → Bool → ℕ → Console → Bool × Console
  | 0, first, _, c => (first, c)
  | fuel + 1, first, head, c =>
      if head < last then
        let arg := conNextInt c.sequence head last (-1)
        let skipped := conNextChar c.sequence arg.2 last
        if arg.1 = -1 then (first, c)
        else sgrLoop last fuel false skipped.2 (c.conSrgApply arg.1)
      else (first, c)

/-- `con_sgr_execute`. -/
def conSgrExecute (c : Console) (head last : ℕ) : Console :=
  let read := sgrLoop last last true head c
  if read.1 then read.2.conSrgApply 0 else read.2

/-- The `ED` branch of `con_csi_execute`. -/
def eraseDisplay (c : Console) (n : ℤ) : Console :=
  if n = 0 then c.conErase c.x c.y (c.width - 1) (c.height - 1)
  else if n = 1 then c.conErase 0 0 c.x c.y
  else if n = 2 ∨ n = 3 then c.conErase 0 0 (c.width - 1) (c.height - 1)
  else c

/-- The `EL` branch of `con_csi_execute`. -/
def eraseLine (c : Console) (n : ℤ) : Console :=
  if n = 0 then c.conErase c.x c.y (c.width - 1) c.y
  else if n = 1 then c.conErase 0 c.y c.x c.y
  else if n = 2 ∨ n = 3 then c.conErase 0 c.y (c.width - 1) c.y
  else c

/-- `con_csi_execute`. -/
def conCsiExecute (c : Console) (head last : ℕ) : Console :=
  let code := c.sequence.getD last 0
  let arg := conNextInt c.sequence head last 1
  if code = ansiCsiCuu then c.conCursor c.x (cMax (wrapInt (c.y - arg.1)) 0)
  else if code = ansiCsiCud then c.conCursor c.x (cMin (wrapInt (c.y + arg.1)) (c.height - 1))
  else if code = ansiCsiCuf then c.conCursor (cMin (wrapInt (c.x + arg.1)) (c.width - 1)) c.y
  else if code = ansiCsiCub then c.conCursor (cMax (wrapInt (c.x - arg.1)) 0) c.y
  else if code = ansiCsiCnl then c.conCursor 0 (cMin (wrapInt (c.y + arg.1)) (c.height - 1))
  -- The branch of the previous line tests `ANSI_CSI_CNL` again and is never taken.
  else if code = ansiCsiCnl then c.conCursor c.x (cMin (wrapInt (c.y + arg.1)) (c.height - 1))
  else if code = ansiCsiCup ∨ code = ansiCsiHvp then
    let n := wrapInt (arg.1 - 1)
    let skipped := conNextChar c.sequence arg.2 last
    let m := wrapInt ((conNextInt c.sequence skipped.2 last 1).1 - 1)
    c.conCursor (clamp n 0 (c.width - 1)) (clamp m 0 (c.height - 1))
  else if code = ansiCsiEd then c.eraseDisplay (conNextInt c.sequence head last 0).1
  else if code = ansiCsiEl then c.eraseLine (conNextInt c.sequence head last 0).1
  else if code = ansiCsiSu then c.conScroll arg.1
  else if code = ansiCsiSd then c.conScroll (wrapInt (-arg.1))
  else if code = ansiCsiScp then { c with sx := c.x, sy := c.y }
  else if code = ansiCsiRcp then c.conCursor c.sx c.sy
  else if code = ansiCsiSgr then c.conSgrExecute head last
  else c

/-- `con_execute`. -/
def conExecute (c : Console) : Console :=
  if c.sequence.getD 0 0 = ansiCsi then c.conCsiExecute 1 (c.sequence.length - 1) else c

/-! ## The lexers -/

/-- The part of `con_lexer_initial` from the label `adjust`. -/
def adjust (c : Console) : Console :=
  let nx := wrapInt (c.x + 1)
  let c :=
    if nx ≥ c.width then c.conCursor 0 (wrapInt (c.y + 1)) else c.conCursor nx c.y
  if c.y ≥ c.height then c.conScroll 1 else c

/-- `con_lexer_initial`. -/
def conLexerInitial (c : Console) (code : UInt8) : Console :=
  if code = ansiBackspace then
    if c.x > 0 then c.conCursor (c.x - 1) c.y else c
  else if code = ansiCarriageReturn then c.conCursor 0 c.y
  else if code = ansiLineFeed then
    let c := c.conCursor 0 (wrapInt (c.y + 1))
    if c.y ≥ c.height then c.conScroll 1 else c
  else if code = ansiEscape then { c with outputLexer := .escape }
  else if c.shortcuts ∧ code = ansiEscCsi then
    { c with sequence := [ansiCsi], outputLexer := .csi }
  else if c.shortcuts ∧ (code = ansiEscDcs ∨ code = ansiEscOsc) then
    { c with sequence := [ansiCsi], outputLexer := .untilSt }
  else if code = ansiTab then (c.conCursor c.conNextTabStop c.y).adjust
  else
    let glyph := c.conAt c.x c.y
    ((c.poke glyph code).poke (glyph + 1) c.conAttr).adjust

/-- `con_lexer_escape`. -/
def conLexerEscape (c : Console) (code : UInt8) : Console :=
  let c := { c with sequence := [code] }
  if code = ansiCsi then { c with outputLexer := .csi }
  else if code = ansiOsc ∨ code = ansiSos ∨ code = ansiPm ∨ code = ansiApc ∨ code = ansiDcs then
    { c with outputLexer := .untilSt }
  else if code = ansiNeoem then { c with shortcuts := false, outputLexer := .initial }
  else if code = ansiNeoam then { c with shortcuts := true, outputLexer := .initial }
  else if code = ansiDecsc then
    { c with sx := c.x, sy := c.y, sa := c.attr, outputLexer := .initial }
  else if code = ansiDecrc then
    { c.conCursor c.sx c.sy with attr := c.sa, outputLexer := .initial }
  else { c with outputLexer := .initial }

/-- `con_lexer_csi`. -/
def conLexerCsi (c : Console) (code : UInt8) : Console :=
  let c := { c with sequence := c.sequence ++ [code] }
  if ansiCsiFinal code then { c.conExecute with outputLexer := .initial }
  else if c.sequence.length ≥ consoleMaxAnsiSequence then { c with outputLexer := .initial }
  else c

/-- `con_lexer_until_st`. -/
def conLexerUntilSt (c : Console) (code : UInt8) : Console :=
  let c := { c with sequence := c.sequence ++ [code] }
  if code = ansiSt ∧ c.sequence.length > 1 ∧
      c.sequence.getD (c.sequence.length - 2) 0 = ansiEscape then
    { c.conExecute with outputLexer := .initial }
  else if c.sequence.length ≥ consoleMaxAnsiSequence then { c with outputLexer := .initial }
  else c

/-- `con_init`. -/
def conInit (c : Console) (maxWidth maxHeight : ℤ) : Console :=
  let c :=
    { c with
      touched := []
      width := maxWidth
      height := maxHeight
      attr := consoleDefaultAttribute
      outputLexer := .initial
      sequence := []
      invert := false
      shortcuts := true
      x := 1 }
  let c := c.conCursor 0 0
  let c := { c with sa := c.attr, sx := 0, sy := 0 }
  c.conErase 0 0 (c.width - 1) (c.height - 1)

/-- `con_write`. -/
def conWrite (c : Console) (code : UInt8) : Console :=
  match c.outputLexer with
  | .initial => c.conLexerInitial code
  | .escape => c.conLexerEscape code
  | .csi => c.conLexerCsi code
  | .untilSt => c.conLexerUntilSt code

/-- The bytes written one after the other. -/
def writeAll (c : Console) (bytes : List UInt8) : Console := bytes.foldl conWrite c

end Console

end Neos
