import Neos.Kernel.CLib

/-!
# Formatted printing of `print.c`

`kprintf` reads its pattern byte by byte in one of three modes and hands every byte
of its output to `con_write`.  The output is collected here in a list; strings are
read from a memory that printing does not change.  The arguments are the words on
the stack, from the first one on.
-/

namespace Neos

open BitMemory

namespace Print

/-- `KPRINTF_MAX_DIGITS`. -/
def kprintfMaxDigits : ℕ := 64

/-- `PrintMode`. -/
inductive PrintMode
  | printDefault
  | printEscape
  | printPadding
deriving DecidableEq

/-- `PrintState` without its mode.  `basePrefix` and `sign` are its flags `prefix`
and `sign`, `padding` is a character and `width` an `int`. -/
structure PrintState where
  basePrefix : Bool
  sign : Bool
  space : Bool
  usign : Bool
  padding : UInt8
  width : ℤ
deriving DecidableEq

/-! ## Strings in memory -/

/-- The loop of `strlen` and `wstrlen`: the number of characters of some bytes each
before the first one that is zero; `none` if there is none. -/
def lengthLoop (zero : ℕ → Bool) : ℕ → ℕ → Option ℕ
  | 0, _ => none
  | fuel + 1, length => if zero length then some length else lengthLoop zero fuel (length + 1)

/-- `memory.c`, `strlen`; the length is an `int`. -/
def strlen (m : Memory) (cstr : ℕ) : Option ℕ :=
  lengthLoop (fun i => load m (cstr + i) = 0) (2 ^ 31) 0

/-- One wide character. -/
def loadWide (m : Memory) (a : ℕ) : ℕ := load m a + load m (a + 1) * 2 ^ 8

/-- `memory.c`, `wstrlen`. -/
def wstrlen (m : Memory) (wstr : ℕ) : Option ℕ :=
  lengthLoop (fun i => loadWide m (wstr + 2 * i) = 0) (2 ^ 31) 0

/-- The characters of `u16_to_cp437` that are not ASCII, with their codes. -/
def cp437 : List (ℕ × UInt8) :=
  [(0x2302, 0x7F), (0x00C7, 0x80), (0x00FC, 0x81), (0x00E9, 0x82), (0x00E2, 0x83), (0x00E4, 0x84),
   (0x00E0, 0x85), (0x00E5, 0x86), (0x00E7, 0x87), (0x00EA, 0x88), (0x00EB, 0x89), (0x00E8, 0x8A),
   (0x00EF, 0x8B), (0x00EE, 0x8C), (0x00EC, 0x8D), (0x00C4, 0x8E), (0x00C5, 0x8F), (0x00C9, 0x90),
   (0x00E6, 0x91), (0x00C6, 0x92), (0x00F4, 0x93), (0x00F6, 0x94), (0x00F2, 0x95), (0x00FB, 0x96),
   (0x00F9, 0x97), (0x00FF, 0x98), (0x00D6, 0x99), (0x00DC, 0x9A), (0x00A2, 0x9B), (0x00A3, 0x9C),
   (0x00A5, 0x9D), (0x20A7, 0x9E), (0x0192, 0x9F), (0x00E1, 0xA0), (0x00ED, 0xA1), (0x00F3, 0xA2),
   (0x00FA, 0xA3), (0x00F1, 0xA4), (0x00D1, 0xA5), (0x00AA, 0xA6), (0x00BA, 0xA7), (0x00BF, 0xA8),
   (0x2310, 0xA9), (0x00AC, 0xAA), (0x00BD, 0xAB), (0x00BC, 0xAC), (0x00A1, 0xAD), (0x00AB, 0xAE),
   (0x00BB, 0xAF), (0x03B1, 0xE0), (0x00DF, 0xE1), (0x0393, 0xE2), (0x03C0, 0xE3), (0x03A3, 0xE4),
   (0x03C3, 0xE5), (0x00B5, 0xE6), (0x03C4, 0xE7), (0x03A6, 0xE8), (0x0398, 0xE9), (0x03A9, 0xEA),
   (0x03B4, 0xEB), (0x221E, 0xEC), (0x03C6, 0xED), (0x03B5, 0xEE), (0x2229, 0xEF), (0x2261, 0xF0),
   (0x00B1, 0xF1), (0x2265, 0xF2), (0x2264, 0xF3), (0x2320, 0xF4), (0x2321, 0xF5), (0x00F7, 0xF6),
   (0x2248, 0xF7), (0x00B0, 0xF8), (0x2219, 0xF9), (0x00B7, 0xFA), (0x221A, 0xFB), (0x207F, 0xFC),
   (0x00B2, 0xFD), (0x25A0, 0xFE), (0x00A0, 0xFF), (0x212B, 0x8F)]

/-- `u16_to_cp437`. -/
def u16ToCp437 (chr : ℕ) : UInt8 :=
  if 0x20 ≤ chr ∧ chr ≤ 0x7E then UInt8.ofNat chr
  else (cp437.lookup chr).getD '?'.toUInt8

/-! ## Conversions -/

/-- How many characters `kprint_string` and `kprint_wstring` write before a string
of some length. -/
def paddingLength (state : PrintState) (length : ℕ) : ℤ :=
  if state.width ≠ -1 then cMax 0 (wrapInt (state.width - length)) else 0

/-- `kprint_string` on a string that is not null, with its padding. -/
def kprintText (state : PrintState) (string : List UInt8) : List UInt8 :=
  List.replicate (paddingLength state string.length).toNat state.padding ++ string

/-- The string that stands for a null pointer. -/
def nullText : List UInt8 := "(null)".toUTF8.data.toList

/-- `kprint_string`; it does not return for a string without end. -/
def kprintString (m : Memory) (state : PrintState) (string : ℕ) : Option (List UInt8) :=
  if string = 0 then some (kprintText state nullText)
  else (strlen m string).map fun length =>
    kprintText state ((List.range length).map fun i => m (wrap (string + i)))

/-- `kprint_wstring`; `nested` is what `kprintf` writes for a pattern. -/
def kprintWstring (nested : List UInt8 → List UInt8) (m : Memory) (state : PrintState)
    (string : ℕ) : Option (List UInt8) :=
  let write (chars : List ℕ) : List UInt8 :=
    List.replicate (paddingLength state chars.length).toNat state.padding ++
      nested [0x1B, '<'.toUInt8] ++ chars.map u16ToCp437 ++ nested [0x1B, '>'.toUInt8]
  if string = 0 then some (write (nullText.map UInt8.toNat))
  else (wstrlen m string).map fun length =>
    write ((List.range length).map fun i => loadWide m (string + 2 * i))

/-- The digits of `kprint_integer`. -/
def digitGlyphs : List UInt8 := "0123456789ABCDEFGHIJKLMNOPQRSTUVWXYZ".toUTF8.data.toList

/-- The loop of `kprint_integer`, with the part of the buffer that is filled. -/
def digitLoop (base : ℕ) : ℕ → ℕ → List UInt8 → List UInt8
  | 0, _, buffer => buffer
  | i + 1, uint, buffer =>
      if uint ≠ 0 then
        digitLoop base i (uint / base) (digitGlyphs.getD (uint % base) 0 :: buffer)
      else buffer

/-- `kprint_integer`; also the state it leaves, with zeros for padding when the
base is printed. -/
def kprintInteger (state : PrintState) (integer : ℤ) (base : ℕ) : List UInt8 × PrintState :=
  if state.width = 0 ∧ integer = 0 then ([], state)
  else
    let negative := integer < 0 ∧ state.usign = false
    let uint := if negative then toWord (-integer) else toWord integer
    let signText : List UInt8 :=
      if negative then ['-'.toUInt8]
      else if state.sign then ['+'.toUInt8]
      else if state.space then [' '.toUInt8]
      else []
    let state' := if state.basePrefix then { state with padding := '0'.toUInt8 } else state
    let baseText : List UInt8 :=
      if state.basePrefix then
        if base = 16 then ['0'.toUInt8, 'x'.toUInt8]
        else if base = 8 then ['0'.toUInt8, 'o'.toUInt8]
        else if base = 2 then ['0'.toUInt8, 'b'.toUInt8]
        else []
      else []
    let digits :=
      if uint = 0 then ['0'.toUInt8] else digitLoop base (kprintfMaxDigits - 2) uint []
    (signText ++ baseText ++ kprintText state' digits, state')

/-! ## The pattern -/

/-- Where `kprintf` is: its state, the index of the argument it reads next, and
what it has written. -/
structure Printer where
  mode : PrintMode
  state : PrintState
  next : ℕ
  output : List UInt8

/-- Write some bytes. -/
def Printer.write (p : Printer) (bytes : List UInt8) : Printer :=
  { p with output := p.output ++ bytes }

/-- `kprint_integer` on the next argument. -/
def Printer.integer (p : Printer) (args : ℕ → ℕ) (base : ℕ) : Printer :=
  let printed := kprintInteger p.state (toInt (args p.next)) base
  { p with state := printed.2, next := p.next + 1, output := p.output ++ printed.1 }

/-- The part of `kprintf` that parses a specifier and its flags, in
`PRINT_DEFAULT`. -/
def specifier (nested : List UInt8 → List UInt8) (m : Memory) (args : ℕ → ℕ) (p : Printer)
    (chr : UInt8) : Option Printer :=
  if chr = '0'.toUInt8 then
    some { p with mode := .printEscape, state := { p.state with padding := '0'.toUInt8 } }
  else if chr = '#'.toUInt8 then
    some { p with mode := .printEscape, state := { p.state with basePrefix := true } }
  else if chr = '+'.toUInt8 then
    some { p with mode := .printEscape, state := { p.state with sign := true } }
  else if chr = ' '.toUInt8 then
    some { p with mode := .printEscape, state := { p.state with space := true } }
  else if chr = 'u'.toUInt8 then
    some { p with mode := .printEscape, state := { p.state with usign := true } }
  else if chr = '.'.toUInt8 then
    some { p with mode := .printPadding, state := { p.state with width := 0 } }
  else if chr = '%'.toUInt8 then some (p.write [chr])
  else if chr = 's'.toUInt8 then
    (kprintString m p.state (args p.next)).map fun text =>
      { p.write text with next := p.next + 1 }
  else if chr = 'S'.toUInt8 then
    (kprintWstring nested m p.state (args p.next)).map fun text =>
      { p.write text with next := p.next + 1 }
  else if chr = 'b'.toUInt8 then some (p.integer args 2)
  else if chr = 'o'.toUInt8 then some (p.integer args 8)
  else if chr = 'd'.toUInt8 ∨ chr = 'i'.toUInt8 then some (p.integer args 10)
  else if chr = 'x'.toUInt8 then some (p.integer args 16)
  else if chr = 'c'.toUInt8 then
    some { p.write [UInt8.ofNat (args p.next)] with next := p.next + 1 }
  else some p

/-- `(chr >= '0') && (chr <= '9')`. -/
def isDigit (chr : UInt8) : Bool := '0'.toUInt8 ≤ chr ∧ chr ≤ '9'.toUInt8

/-- The state at the `%` of a specifier. -/
def freshState : PrintState where
  basePrefix := false
  sign := false
  space := false
  usign := false
  padding := ' '.toUInt8
  width := -1

/-- The body of the loop of `kprintf`. -/
def kprintfStep (nested : List UInt8 → List UInt8) (m : Memory) (args : ℕ → ℕ) (p : Printer)
    (chr : UInt8) : Option Printer :=
  if p.mode = .printPadding ∧ isDigit chr then
    some { p with
      state := { p.state with
        width := wrapInt (wrapInt (p.state.width * 10) + (chr.toNat - 48)) } }
  -- any other byte ends the width and is looked at as a specifier
  else if p.mode = .printPadding ∨ p.mode = .printEscape then
    specifier nested m args { p with mode := .printDefault } chr
  else if chr = '%'.toUInt8 then some { p with mode := .printEscape, state := freshState }
  else some (p.write [chr])

/-- `kprintf` on the bytes of a pattern before its end; `stack` is what the
uninitialised state holds. -/
def kprintfWith (nested : List UInt8 → List UInt8) (m : Memory) (stack : PrintState)
    (args : ℕ → ℕ) (pattern : List UInt8) : Option Printer :=
  pattern.foldlM (kprintfStep nested m args) ⟨.printDefault, stack, 0, []⟩

/-- `kprintf`.  It calls itself, from `kprint_wstring`, with patterns that print no
wide string. -/
def kprintf (m : Memory) (stack : PrintState) (args : ℕ → ℕ) (pattern : List UInt8) :
    Option Printer :=
  kprintfWith
    (fun inner => ((kprintfWith (fun _ => []) m stack args inner).map Printer.output).getD [])
    m stack args pattern

end Print

end Neos
