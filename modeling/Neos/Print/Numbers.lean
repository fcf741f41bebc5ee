import Mathlib.Tactic.IntervalCases
import Neos.Library.Numerals
import Neos.Print.Specifiers

/-!
# Integers in print

A conversion of an integer writes a sign, the base, padding and the canonical
numeral of the magnitude.  The width is an `int`: a width that overflows it is
printed right only if the number of characters that are missing still fits.
-/

namespace Neos

open BitMemory Numerals

namespace Print

/-! ## What should be printed -/

/-- The conversions of integers, with their bases. -/
def integerConversions : List (UInt8 × ℕ) :=
  [('d'.toUInt8, 10), ('i'.toUInt8, 10), ('o'.toUInt8, 8), ('x'.toUInt8, 16), ('b'.toUInt8, 2)]

/-- The canonical numeral of a number. -/
def numeralText (base n : ℕ) : List UInt8 := (numeral base n).map fun d => digitGlyphs.getD d 0

/-- The digit a character stands for. -/
def digitOf (chr : UInt8) : ℕ := if isDigit chr then chr.toNat - 48 else chr.toNat - 55

/-- The number that some digits denote. -/
def readDigits (base : ℕ) (digits : List UInt8) : ℕ := value base (digits.map digitOf)

/-- The flags among some modifiers. -/
def flagsOf (mods : List Modifier) : List Flag :=
  mods.filterMap fun
    | .flag f => some f
    | .width _ => none

/-- The width among some modifiers, the last one if there are several. -/
def widthOf (mods : List Modifier) : Option ℕ :=
  mods.foldl (fun width mod => match mod with
    | .flag _ => width
    | .width digits => some (readDigits 10 digits)) none

/-- The number whose digits are printed. -/
def magnitude (flags : List Flag) (integer : ℤ) : ℕ :=
  if .usign ∈ flags then toWord integer else integer.natAbs

/-- The sign character, if there is one. -/
def signChars (flags : List Flag) (integer : ℤ) : List UInt8 :=
  if integer < 0 ∧ .usign ∉ flags then ['-'.toUInt8]
  else if .sign ∈ flags then ['+'.toUInt8]
  else if .space ∈ flags then [' '.toUInt8]
  else []

/-- The base, if it is printed. -/
def baseChars (flags : List Flag) (base : ℕ) : List UInt8 :=
  if .basePrefix ∈ flags then
    if base = 16 then ['0'.toUInt8, 'x'.toUInt8]
    else if base = 8 then ['0'.toUInt8, 'o'.toUInt8]
    else if base = 2 then ['0'.toUInt8, 'b'.toUInt8]
    else []
  else []

/-- The character that pads. -/
def padChar (flags : List Flag) : UInt8 :=
  if .zero ∈ flags ∨ .basePrefix ∈ flags then '0'.toUInt8 else ' '.toUInt8

/-- The number of characters that a numeral of some length lacks. -/
def padCount (width : Option ℕ) (length : ℕ) : ℕ := width.elim 0 (· - length)

/-- The padding and the numeral. -/
def digitsText (flags : List Flag) (width : Option ℕ) (base : ℕ) (integer : ℤ) : List UInt8 :=
  List.replicate (padCount width (numeralText base (magnitude flags integer)).length)
      (padChar flags) ++
    numeralText base (magnitude flags integer)

/-- What is written for an integer: its sign, its base, and its padded numeral.
Read without blanks, this gives the integer back. -/
structure PrintsInteger (output : Option (List UInt8)) (flags : List Flag) (width : Option ℕ)
    (base : ℕ) (integer : ℤ) : Prop where
  text : output = some (signChars flags integer ++ baseChars flags base ++
    digitsText flags width base integer)
  value : padChar flags = '0'.toUInt8 ∨
      padCount width (numeralText base (magnitude flags integer)).length = 0 →
    (if signChars flags integer = ['-'.toUInt8] then -1 else 1) *
        (readDigits base (digitsText flags width base integer) : ℤ) =
      if .usign ∈ flags then (toWord integer : ℤ) else integer

/-! ## Numerals -/

theorem digitOf_glyph {d : ℕ} (hd : d < 36) : digitOf (digitGlyphs.getD d 0) = d := by
  interval_cases d <;> decide

theorem readDigits_numeralText {base : ℕ} (hb : 1 < base) (hb' : base ≤ 36) (k n : ℕ) :
    readDigits base (List.replicate k '0'.toUInt8 ++ numeralText base n) = n := by
  have hdigits : (numeralText base n).map digitOf = numeral base n := by
    rw [numeralText, List.map_map]
    calc (numeral base n).map (digitOf ∘ fun d => digitGlyphs.getD d 0)
        = (numeral base n).map id := List.map_congr_left fun d hd =>
          digitOf_glyph (Nat.lt_of_lt_of_le (lt_of_mem_numeral hb hd) hb')
      _ = numeral base n := List.map_id _
  have hzero : digitOf '0'.toUInt8 = 0 := by decide
  rw [readDigits, List.map_append, List.map_replicate, hzero, hdigits, value_zeros_append,
    value_numeral]

/-- The loop of `kprint_integer` fills the buffer with the digits of its number. -/
theorem digitLoop_eq {base : ℕ} (hb : 1 < base) :
    ∀ (i uint : ℕ) (buffer : List UInt8), uint < base ^ i →
      digitLoop base i uint buffer =
        ((base.digits uint).reverse.map fun d => digitGlyphs.getD d 0) ++ buffer
  | 0, uint, buffer, huint => by
      have hzero : uint = 0 := by
        rw [Nat.pow_zero] at huint
        omega
      rw [hzero, Nat.digits_zero]
      rfl
  | i + 1, uint, buffer, huint => by
      unfold digitLoop
      by_cases hzero : uint = 0
      · rw [if_neg (not_not.mpr hzero), hzero, Nat.digits_zero]
        rfl
      · have hquotient : uint / base < base ^ i :=
          Nat.div_lt_of_lt_mul (by rwa [← Nat.pow_succ'])
        rw [if_pos hzero, digitLoop_eq hb i (uint / base) _ hquotient,
          Nat.digits_def' hb (Nat.pos_of_ne_zero hzero), List.reverse_cons, List.map_append,
          List.append_assoc]
        rfl

/-- The digits `kprint_integer` writes are the canonical numeral. -/
theorem kprintInteger_digits {base uint : ℕ} (hb : 1 < base) (huint : uint < 2 ^ 32) :
    (if uint = 0 then ['0'.toUInt8] else digitLoop base (kprintfMaxDigits - 2) uint []) =
      numeralText base uint := by
  rw [numeralText, numeral]
  split
  · rfl
  · have hfits : uint < base ^ 62 := calc
      uint < 2 ^ 32 := huint
      _ ≤ 2 ^ 62 := by decide
      _ ≤ base ^ 62 := Nat.pow_le_pow_left hb 62
    rw [show kprintfMaxDigits - 2 = 62 from rfl, digitLoop_eq hb 62 uint [] hfits,
      List.append_nil]

theorem length_numeralText {base n : ℕ} (hb : 1 < base) (hn : n < 2 ^ 32) :
    0 < (numeralText base n).length ∧ (numeralText base n).length ≤ 32 := by
  rw [numeralText, List.length_map]
  exact ⟨List.length_pos_of_ne_nil (numeral_ne_nil base n),
    length_numeral_le hb (by decide) (hn.trans_le (Nat.pow_le_pow_left hb 32))⟩

/-! ## The state that modifiers make -/

/-- The digits of a width are accumulated modulo `2 ^ 32`. -/
theorem foldl_widthDigit (digits : List UInt8) (hdigits : ∀ d ∈ digits, isDigit d = true) (w : ℕ) :
    digits.foldl widthDigit (wrapInt w) =
      wrapInt ((digits.map digitOf).foldl (fun n d => n * 10 + d) w : ℕ) := by
  induction digits generalizing w with
  | nil => rfl
  | cons d digits ih =>
      have hd := hdigits d List.mem_cons_self
      have hge : 48 ≤ d.toNat := by
        rw [isDigit, decide_eq_true_eq] at hd
        exact UInt8.le_iff_toNat_le.mp hd.1
      have hglyph : ((digitOf d : ℕ) : ℤ) = d.toNat - 48 := by
        rw [digitOf, if_pos hd, Nat.cast_sub hge]
        rfl
      have hdigit : widthDigit (wrapInt w) d = wrapInt ((w * 10 + digitOf d : ℕ) : ℤ) := by
        have hw := wrapInt_emod w
        have htens := wrapInt_emod (wrapInt w * 10)
        rw [widthDigit]
        apply wrapInt_congr
        push_cast
        omega
      rw [List.foldl_cons, List.map_cons, List.foldl_cons, hdigit]
      exact ih (fun d' hd' => hdigits d' (List.mem_cons_of_mem _ hd')) _

/-- The width that a specifier gives. -/
def widthField (width : Option ℕ) : ℤ := width.elim (-1) fun n => wrapInt n

/-- The state that some modifiers make, in whatever order they come. -/
theorem format_eq (mods : List Modifier)
    (hmods : ∀ digits, Modifier.width digits ∈ mods → ∀ d ∈ digits, isDigit d = true) :
    format mods =
      { basePrefix := decide (.basePrefix ∈ flagsOf mods)
        sign := decide (.sign ∈ flagsOf mods)
        space := decide (.space ∈ flagsOf mods)
        usign := decide (.usign ∈ flagsOf mods)
        padding := if .zero ∈ flagsOf mods then '0'.toUInt8 else ' '.toUInt8
        width := widthField (widthOf mods) } := by
  induction mods using List.reverseRecOn with
  | nil => rfl
  | append_singleton mods mod ih =>
      have hlast : format (mods ++ [mod]) = mod.apply (format mods) := by
        rw [format, List.foldl_append]
        rfl
      have hearlier := ih fun digits hdigits => hmods digits (List.mem_append_left _ hdigits)
      cases mod with
      | flag f =>
          have hflags : flagsOf (mods ++ [.flag f]) = flagsOf mods ++ [f] := List.filterMap_append
          have hwidth : widthOf (mods ++ [.flag f]) = widthOf mods := List.foldl_append
          rw [hlast, hearlier, hflags, hwidth]
          cases f <;> simp [Modifier.apply, Flag.apply]
      | width digits =>
          have hflags : flagsOf (mods ++ [.width digits]) = flagsOf mods := by
            rw [flagsOf, List.filterMap_append]
            exact List.append_nil _
          have hwidth : widthOf (mods ++ [.width digits]) = some (readDigits 10 digits) :=
            List.foldl_append
          have hdigits := foldl_widthDigit digits
            (hmods digits (List.mem_append_right _ List.mem_cons_self)) 0
          rw [hlast, hearlier, hflags, hwidth, Modifier.apply]
          exact congrArg (PrintState.mk _ _ _ _ _) hdigits

theorem Munched.digits {rest : List UInt8} :
    ∀ mods : List Modifier, Munched mods rest → ∀ digits, Modifier.width digits ∈ mods →
      ∀ d ∈ digits, isDigit d = true
  | .flag _ :: mods, h, digits, hmem =>
      Munched.digits mods h digits ((List.mem_cons.mp hmem).resolve_left nofun)
  | .width _ :: mods, ⟨hdigits, _, h⟩, digits, hmem => by
      rcases List.mem_cons.mp hmem with heq | hmem
      · cases heq
        exact hdigits
      · exact Munched.digits mods h digits hmem

/-! ## What is printed -/

theorem toWord_neg {integer : ℤ} (h₁ : -2 ^ 31 ≤ integer) (h₂ : integer < 0) :
    toWord (-integer) = integer.natAbs := by
  unfold toWord
  omega

theorem magnitude_lt (flags : List Flag) {integer : ℤ} (h₁ : -2 ^ 31 ≤ integer)
    (h₂ : integer < 2 ^ 31) : magnitude flags integer < 2 ^ 32 := by
  rw [magnitude]
  unfold toWord
  split <;> omega

/-- How many characters are written in front of a numeral of some length. -/
def paddedBy (width : Option ℕ) (length : ℕ) : ℕ :=
  (if widthField width ≠ -1 then cMax 0 (wrapInt (widthField width - length)) else 0).toNat

/-- `kprint_integer` with the state that modifiers make. -/
theorem kprintInteger_eq {mods : List Modifier}
    (hmods : ∀ digits, Modifier.width digits ∈ mods → ∀ d ∈ digits, isDigit d = true)
    {base : ℕ} (hb : 1 < base) {integer : ℤ} (h₁ : -2 ^ 31 ≤ integer) (h₂ : integer < 2 ^ 31)
    (hwidth : ¬ (widthField (widthOf mods) = 0 ∧ integer = 0)) :
    (kprintInteger (format mods) integer base).1 =
      signChars (flagsOf mods) integer ++ baseChars (flagsOf mods) base ++
        (List.replicate
            (paddedBy (widthOf mods) (numeralText base (magnitude (flagsOf mods) integer)).length)
            (padChar (flagsOf mods)) ++
          numeralText base (magnitude (flagsOf mods) integer)) := by
  have hneg : (integer < 0 ∧ decide (Flag.usign ∈ flagsOf mods) = false) ↔
      integer < 0 ∧ .usign ∉ flagsOf mods := by
    rw [decide_eq_false_iff_not]
  have huint : (if integer < 0 ∧ .usign ∉ flagsOf mods then toWord (-integer)
      else toWord integer) = magnitude (flagsOf mods) integer := by
    rw [magnitude]
    by_cases husign : .usign ∈ flagsOf mods
    · rw [if_pos husign, if_neg fun h => h.2 husign]
    · rw [if_neg husign]
      split
      · exact toWord_neg h₁ (by tauto)
      · have hpos : 0 ≤ integer := by
          by_contra hlt
          exact absurd ⟨by omega, husign⟩ ‹¬ (integer < 0 ∧ _)›
        unfold toWord
        omega
  have hlt := magnitude_lt (flagsOf mods) h₁ h₂
  have hzero : .basePrefix ∉ flagsOf mods →
      (if .zero ∈ flagsOf mods then '0'.toUInt8 else ' '.toUInt8) = padChar (flagsOf mods) := by
    intro hbase
    simp only [padChar, hbase, or_false]
  have hbase : .basePrefix ∈ flagsOf mods → '0'.toUInt8 = padChar (flagsOf mods) :=
    fun hbase => (if_pos (.inr hbase)).symm
  rw [kprintInteger, format_eq mods hmods, if_neg hwidth]
  simp only [hneg, huint, decide_eq_true_eq, kprintInteger_digits hb hlt]
  refine congrArg₂ (· ++ ·) rfl ?_
  -- the padding is zero when the base is printed
  split
  · exact congrArg (List.replicate _ · ++ _) (hbase ‹_›)
  · exact congrArg (List.replicate _ · ++ _) (hzero ‹_›)

/-- A width that exceeds an `int` is right as long as what is missing fits. -/
theorem paddedBy_eq_iff {width : Option ℕ} {length : ℕ} (h₁ : 0 < length) (h₂ : length ≤ 32)
    (hwidth : ∀ n ∈ width, 1 ≤ n) :
    paddedBy width length = padCount width length ↔ ∀ n ∈ width, n < 2 ^ 31 + length := by
  cases width with
  | none => exact iff_of_true rfl nofun
  | some n =>
      have hpos : 1 ≤ n := hwidth n rfl
      have hsmall : paddedBy (some n) length < 2 ^ 31 := by
        have hrange := (wrapInt_range (wrapInt n - length)).2
        show (if wrapInt n ≠ -1 then cMax 0 (wrapInt (wrapInt n - length)) else 0).toNat < _
        unfold cMax
        split_ifs <;> omega
      have hfits : n < 2 ^ 31 + length → paddedBy (some n) length = n - length := by
        intro hn
        have hmod := wrapInt_emod n
        have hsub : wrapInt (wrapInt n - length) = (n : ℤ) - length := calc
          wrapInt (wrapInt n - length) = wrapInt (n - length) := wrapInt_congr (by omega)
          _ = n - length := wrapInt_of_fits (by omega) (by omega)
        show (if wrapInt n ≠ -1 then cMax 0 (wrapInt (wrapInt n - length)) else 0).toNat = _
        rw [hsub]
        unfold cMax
        split_ifs <;> omega
      constructor
      · rintro heq _ ⟨⟩
        change paddedBy (some n) length = n - length at heq
        omega
      · exact fun h => hfits (h n rfl)

theorem widthField_ne_zero {width : Option ℕ} {length : ℕ} (h : length ≤ 32)
    (hwidth : ∀ n ∈ width, 1 ≤ n) (hfits : ∀ n ∈ width, n < 2 ^ 31 + length) :
    widthField width ≠ 0 := by
  cases width with
  | none => exact nofun
  | some n =>
      have hpos := hwidth n rfl
      have hlt := hfits n rfl
      have hmod := wrapInt_emod n
      intro hzero
      rw [show wrapInt n = 0 from hzero] at hmod
      omega

theorem signChars_eq_minus (flags : List Flag) (integer : ℤ) :
    signChars flags integer = ['-'.toUInt8] ↔ integer < 0 ∧ .usign ∉ flags := by
  rw [signChars]
  split
  · exact iff_of_true rfl ‹_›
  · refine iff_of_false ?_ ‹_›
    split_ifs <;> exact nofun

/-- The sign and the digits give the integer back. -/
theorem readDigits_digitsText {flags : List Flag} {width : Option ℕ} {base : ℕ} (hb : 1 < base)
    (hb' : base ≤ 36) {integer : ℤ} (h₁ : -2 ^ 31 ≤ integer) (h₂ : integer < 2 ^ 31)
    (hzeros : padChar flags = '0'.toUInt8 ∨
      padCount width (numeralText base (magnitude flags integer)).length = 0) :
    (if signChars flags integer = ['-'.toUInt8] then -1 else 1) *
        (readDigits base (digitsText flags width base integer) : ℤ) =
      if .usign ∈ flags then (toWord integer : ℤ) else integer := by
  have htext : digitsText flags width base integer =
      List.replicate (padCount width (numeralText base (magnitude flags integer)).length)
          '0'.toUInt8 ++
        numeralText base (magnitude flags integer) := by
    rw [digitsText]
    rcases hzeros with hzeros | hzeros
    · rw [hzeros]
    · rw [hzeros]
      rfl
  rw [htext, readDigits_numeralText hb hb', if_congr (signChars_eq_minus flags integer) rfl rfl,
    magnitude]
  by_cases husign : .usign ∈ flags
  · rw [if_pos husign, if_pos husign, if_neg fun h => h.2 husign, one_mul]
  · rw [if_neg husign, if_neg husign]
    by_cases hneg : integer < 0
    · rw [if_pos ⟨hneg, husign⟩]
      omega
    · rw [if_neg fun h => hneg h.1]
      omega

theorem convert_integer (m : Memory) (state : PrintState) (word : ℕ) {conversion : UInt8} {base : ℕ}
    (hconversion : (conversion, base) ∈ integerConversions) :
    convert m state word conversion = some (kprintInteger state (toInt word) base).1 ∧
      conversion ∉ modifierChars ∧ 1 < base ∧ base ≤ 36 := by
  simp only [integerConversions, List.mem_cons, List.not_mem_nil, or_false, Prod.mk.injEq] at hconversion
  obtain ⟨rfl, rfl⟩ | ⟨rfl, rfl⟩ | ⟨rfl, rfl⟩ | ⟨rfl, rfl⟩ | ⟨rfl, rfl⟩ := hconversion <;>
    exact ⟨rfl, by decide, by decide, by decide⟩

/-- `kprintf` on a pattern that is one specifier. -/
theorem kprintf_specifier (m : Memory) (stack : PrintState) (args : ℕ → ℕ) {mods : List Modifier}
    {conversion : UInt8} (hwf : (Segment.specifier mods conversion).WellFormed) :
    (kprintf m stack args (Segment.specifier mods conversion).text).map Printer.output =
      convert m (format mods) (args 0) conversion := by
  obtain ⟨state, hrun⟩ := run_segment m args (nested_plain (fun _ => []) m stack args) hwf []
    (p := ⟨.printDefault, stack, 0, []⟩) rfl
  rw [List.append_nil] at hrun
  rw [kprintf, kprintfWith, hrun]
  show ((convert m (format mods) (args 0) conversion).bind _).map _ = _
  cases convert m (format mods) (args 0) conversion <;> rfl

/-- An integer is printed as a sign, a base, padding and its canonical numeral,
which reads as the integer, exactly if the width leaves the padding in an `int`. -/
theorem kprintf_printsInteger_iff (m : Memory) (stack : PrintState) (args : ℕ → ℕ)
    {mods : List Modifier} {conversion : UInt8} {base : ℕ}
    (hconversion : (conversion, base) ∈ integerConversions) (hmods : Munched mods [conversion])
    (hwidth : ∀ n ∈ widthOf mods, 1 ≤ n) :
    PrintsInteger ((kprintf m stack args (Segment.specifier mods conversion).text).map Printer.output)
        (flagsOf mods) (widthOf mods) base (toInt (args 0)) ↔
      ∀ n ∈ widthOf mods,
        n < 2 ^ 31 + (numeralText base (magnitude (flagsOf mods) (toInt (args 0)))).length := by
  obtain ⟨hconvert, hchar, hb, hb'⟩ := convert_integer m (format mods) (args 0) hconversion
  obtain ⟨h₁, h₂⟩ := toInt_bounds (args 0)
  rw [kprintf_specifier m stack args ⟨hmods, hchar⟩, hconvert]
  generalize toInt (args 0) = integer at *
  obtain ⟨hpos, hle⟩ := length_numeralText (n := magnitude (flagsOf mods) integer) hb
    (magnitude_lt (flagsOf mods) h₁ h₂)
  by_cases hempty : widthField (widthOf mods) = 0 ∧ integer = 0
  · -- a width that wraps around to zero hides the zero
    constructor
    · rintro ⟨htext, -⟩
      rw [kprintInteger, format_eq mods (Munched.digits mods hmods), if_pos hempty] at htext
      have hlength := congrArg List.length (Option.some.inj htext)
      rw [digitsText, List.length_append, List.length_append, List.length_append,
        List.length_nil] at hlength
      omega
    · intro hfits
      exact absurd hempty.1 (widthField_ne_zero hle hwidth hfits)
  rw [← paddedBy_eq_iff hpos hle hwidth, kprintInteger_eq (Munched.digits mods hmods) hb h₁ h₂ hempty]
  constructor
  · rintro ⟨htext, -⟩
    have hlength := congrArg List.length (List.append_cancel_left (Option.some.inj htext))
    rw [digitsText, List.length_append, List.length_append, List.length_replicate,
      List.length_replicate] at hlength
    exact Nat.add_right_cancel hlength
  · intro hpad
    exact ⟨by rw [hpad, digitsText], fun hzeros => readDigits_digitsText hb hb' h₁ h₂ hzeros⟩

theorem kprintf_printsInteger_iff_padded :
    PrintsInteger
        ((kprintf (fun _ => 0) freshState (fun _ => 0x80000000) "%#.10x".toUTF8.data.toList).map
          Printer.output)
        [.basePrefix] (some 10) 16 (-2 ^ 31) ↔
      ∀ n ∈ some 10, n < 2 ^ 31 + (numeralText 16 (2 ^ 31)).length := by
  have hconversion : ('x'.toUInt8, 16) ∈ integerConversions := by decide
  have hmods : Munched [.flag .basePrefix, .width ['1'.toUInt8, '0'.toUInt8]] ['x'.toUInt8] :=
    ⟨by decide +kernel, by decide +kernel, trivial⟩
  exact kprintf_printsInteger_iff (fun _ => 0) freshState (fun _ => 0x80000000) hconversion hmods
    (by decide)

/-- A width of `2 ^ 32` is no width, and a zero of no width is not written. -/
theorem zero_not_printed :
    ¬ PrintsInteger
      ((kprintf (fun _ => 0) freshState (fun _ => 0) "%.4294967296d".toUTF8.data.toList).map
        Printer.output)
      [] (some 4294967296) 10 0 := by
  have hnothing : (kprintf (fun _ => 0) freshState (fun _ => 0)
      "%.4294967296d".toUTF8.data.toList).map Printer.output = some [] := by
    have hformat : format [.width "4294967296".toUTF8.data.toList] = { freshState with width := 0 } := by
      decide +kernel
    have hwf : (Segment.specifier [.width "4294967296".toUTF8.data.toList] 'd'.toUInt8).WellFormed :=
      ⟨⟨by decide +kernel, by decide +kernel, trivial⟩, by decide⟩
    refine (kprintf_specifier (fun _ => 0) freshState (fun _ => 0) hwf).trans ?_
    rw [hformat]
    rfl
  intro hprints
  rw [hnothing] at hprints
  have hlength := congrArg List.length (Option.some.inj hprints.text)
  have hnumeral : (numeralText 10 (magnitude [] 0)).length = 1 := by decide
  rw [digitsText, List.length_append, List.length_append, List.length_append, hnumeral,
    List.length_nil] at hlength
  omega

end Print

end Neos
