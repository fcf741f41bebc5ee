import Mathlib.Data.List.TakeWhile
import Neos.Print.Model

/-!
# Patterns and their specifiers

A pattern is read as bytes and specifiers, one after the other.  What a specifier
writes depends on its own modifiers and, if it is recognised, on one argument; the
three modes of `kprintf` and the state they share carry nothing further.
-/

namespace Neos

open BitMemory

namespace Print

variable {p : Printer} {rest : List UInt8}

/-! ## Specifiers -/

/-- A flag of a specifier. -/
inductive Flag
  | zero
  | basePrefix
  | sign
  | space
  | usign
deriving DecidableEq

/-- The character of a flag. -/
def Flag.char : Flag → UInt8
  | zero => '0'.toUInt8
  | basePrefix => '#'.toUInt8
  | sign => '+'.toUInt8
  | space => ' '.toUInt8
  | usign => 'u'.toUInt8

/-- What a flag does to the state. -/
def Flag.apply (state : PrintState) : Flag → PrintState
  | zero => { state with padding := '0'.toUInt8 }
  | basePrefix => { state with basePrefix := true }
  | sign => { state with sign := true }
  | space => { state with space := true }
  | usign => { state with usign := true }

/-- A modifier: a flag, or a width of some digits. -/
inductive Modifier
  | flag (f : Flag)
  | width (digits : List UInt8)
deriving DecidableEq

/-- The character in front of a width. -/
def widthChar : UInt8 := '.'.toUInt8

/-- The bytes of a modifier. -/
def Modifier.text : Modifier → List UInt8
  | flag f => [f.char]
  | width digits => widthChar :: digits

/-- One more digit of a width. -/
def widthDigit (width : ℤ) (digit : UInt8) : ℤ :=
  wrapInt (wrapInt (width * 10) + (digit.toNat - 48))

/-- What a modifier does to the state. -/
def Modifier.apply (state : PrintState) : Modifier → PrintState
  | flag f => f.apply state
  | width digits => { state with width := digits.foldl widthDigit 0 }

/-- The bytes of some modifiers. -/
def modifiersText (mods : List Modifier) : List UInt8 := mods.flatMap Modifier.text

/-- The state that the modifiers of a specifier make. -/
def format (mods : List Modifier) : PrintState := mods.foldl Modifier.apply freshState

/-- Modifiers as they are read in front of some bytes: a width takes all digits
that follow it. -/
def Munched : List Modifier → List UInt8 → Prop
  | [], _ => True
  | .flag _ :: mods, rest => Munched mods rest
  | .width digits :: mods, rest =>
      (∀ d ∈ digits, isDigit d = true) ∧
        (∀ c ∈ (modifiersText mods ++ rest).head?, isDigit c = false) ∧ Munched mods rest

/-- The characters that begin a modifier. -/
def modifierChars : List UInt8 :=
  [Flag.zero.char, Flag.basePrefix.char, Flag.sign.char, Flag.space.char, Flag.usign.char, widthChar]

/-- The character of a specifier. -/
def percent : UInt8 := '%'.toUInt8

/-- The conversions that take an argument. -/
def conversions : List UInt8 :=
  ['s'.toUInt8, 'S'.toUInt8, 'b'.toUInt8, 'o'.toUInt8, 'd'.toUInt8, 'i'.toUInt8, 'x'.toUInt8,
    'c'.toUInt8]

/-- What a conversion writes for its argument. -/
def convert (m : Memory) (state : PrintState) (word : ℕ) (conversion : UInt8) :
    Option (List UInt8) :=
  if conversion = '%'.toUInt8 then some ['%'.toUInt8]
  else if conversion = 's'.toUInt8 then kprintString m state word
  else if conversion = 'S'.toUInt8 then kprintWstring id m state word
  else if conversion = 'b'.toUInt8 then some (kprintInteger state (toInt word) 2).1
  else if conversion = 'o'.toUInt8 then some (kprintInteger state (toInt word) 8).1
  else if conversion = 'd'.toUInt8 ∨ conversion = 'i'.toUInt8 then
    some (kprintInteger state (toInt word) 10).1
  else if conversion = 'x'.toUInt8 then some (kprintInteger state (toInt word) 16).1
  else if conversion = 'c'.toUInt8 then some [UInt8.ofNat word]
  else some []

/-- A part of a pattern. -/
inductive Segment
  | byte (b : UInt8)
  | specifier (mods : List Modifier) (conversion : UInt8)

namespace Segment

/-- The bytes of a part. -/
def text : Segment → List UInt8
  | byte b => [b]
  | specifier mods conversion => percent :: (modifiersText mods ++ [conversion])

/-- A part as it is read. -/
def WellFormed : Segment → Prop
  | byte b => b ≠ percent
  | specifier mods conversion => Munched mods [conversion] ∧ conversion ∉ modifierChars

/-- How many arguments a part takes. -/
def arguments : Segment → ℕ
  | byte _ => 0
  | specifier _ conversion => if conversion ∈ conversions then 1 else 0

/-- What a part writes, given the next argument. -/
def output (m : Memory) (word : ℕ) : Segment → Option (List UInt8)
  | byte b => some [b]
  | specifier mods conversion => convert m (format mods) word conversion

/-- A part that takes a string is given a null pointer or one to a string that
ends. -/
def Readable (m : Memory) (word : ℕ) : Segment → Prop
  | byte _ => True
  | specifier _ conversion =>
      (conversion = 's'.toUInt8 → word ≠ 0 → ∃ n < 2 ^ 31, load m (word + n) = 0) ∧
        (conversion = 'S'.toUInt8 → word ≠ 0 → ∃ n < 2 ^ 31, loadWide m (word + 2 * n) = 0)

end Segment

/-- What some parts write, each with the arguments behind those of the parts before
it. -/
def printed (m : Memory) (args : ℕ → ℕ) : ℕ → List Segment → Option (List UInt8)
  | _, [] => some []
  | next, segment :: segments =>
      (segment.output m (args next)).bind fun text =>
        (printed m args (next + segment.arguments) segments).map (text ++ ·)

/-- All strings among the arguments can be read. -/
def AllReadable (m : Memory) (args : ℕ → ℕ) : ℕ → List Segment → Prop
  | _, [] => True
  | next, segment :: segments =>
      segment.Readable m (args next) ∧ AllReadable m args (next + segment.arguments) segments

/-- The bytes of a specifier that the end of the pattern cuts off. -/
def unfinishedText (unfinished : Option (List Modifier)) : List UInt8 :=
  unfinished.elim [] fun mods => percent :: modifiersText mods

/-- A pattern consists of some parts, in order, and of a specifier that its end cuts
off, if there is one. -/
structure Consists (pattern : List UInt8) (segments : List Segment)
    (unfinished : Option (List Modifier)) : Prop where
  text : pattern = segments.flatMap Segment.text ++ unfinishedText unfinished
  segments : ∀ segment ∈ segments, segment.WellFormed
  unfinished : ∀ mods ∈ unfinished, Munched mods []

/-! ## Every pattern consists of parts -/

theorem flag_of_mem {chr : UInt8} (h : chr ∈ modifierChars) :
    (∃ f : Flag, chr = f.char) ∨ chr = widthChar := by
  rcases List.mem_cons.mp h with rfl | h
  · exact .inl ⟨.zero, rfl⟩
  rcases List.mem_cons.mp h with rfl | h
  · exact .inl ⟨.basePrefix, rfl⟩
  rcases List.mem_cons.mp h with rfl | h
  · exact .inl ⟨.sign, rfl⟩
  rcases List.mem_cons.mp h with rfl | h
  · exact .inl ⟨.space, rfl⟩
  rcases List.mem_cons.mp h with rfl | h
  · exact .inl ⟨.usign, rfl⟩
  · exact .inr (List.mem_singleton.mp h)

/-- What follows the `%` of a specifier: its modifiers, then its conversion or the
end of the pattern. -/
theorem exists_specifier : ∀ (n : ℕ) (bytes : List UInt8), bytes.length ≤ n →
    ∃ mods, (bytes = modifiersText mods ∧ Munched mods []) ∨
      ∃ conversion rest, bytes = modifiersText mods ++ conversion :: rest ∧
        (Segment.specifier mods conversion).WellFormed
  | _, [], _ => ⟨[], .inl ⟨rfl, trivial⟩⟩
  | n + 1, chr :: bytes, hn => by
      have hshort : bytes.length ≤ n := Nat.le_of_succ_le_succ hn
      by_cases hmod : chr ∈ modifierChars
      · rcases flag_of_mem hmod with ⟨f, rfl⟩ | rfl
        · obtain ⟨mods, ⟨rfl, hm⟩ | ⟨conversion, rest, rfl, hwf⟩⟩ :=
            exists_specifier n bytes hshort
          · exact ⟨.flag f :: mods, .inl ⟨rfl, hm⟩⟩
          · exact ⟨.flag f :: mods, .inr ⟨conversion, rest, rfl, hwf⟩⟩
        · have hdigits : ∀ d ∈ bytes.takeWhile isDigit, isDigit d = true :=
            fun d hd => List.mem_takeWhile_imp hd
          have hstop : ∀ c ∈ (bytes.dropWhile isDigit).head?, isDigit c = false := by
            intro c hc
            have hnot := List.head?_dropWhile_not isDigit bytes
            rw [Option.mem_def.mp hc] at hnot
            exact hnot
          have hsplit : bytes.takeWhile isDigit ++ bytes.dropWhile isDigit = bytes :=
            List.takeWhile_append_dropWhile
          have hless : (bytes.dropWhile isDigit).length ≤ n :=
            (List.length_dropWhile_le isDigit bytes).trans hshort
          obtain ⟨mods, ⟨hrest, hm⟩ | ⟨conversion, rest, hrest, hm, hconversion⟩⟩ :=
            exists_specifier n (bytes.dropWhile isDigit) hless
          · refine ⟨.width (bytes.takeWhile isDigit) :: mods, .inl ⟨?_, hdigits, ?_, hm⟩⟩
            · show widthChar :: bytes = widthChar :: (bytes.takeWhile isDigit ++ modifiersText mods)
              rw [← hrest, hsplit]
            · rw [List.append_nil, ← hrest]
              exact hstop
          · refine ⟨.width (bytes.takeWhile isDigit) :: mods,
              .inr ⟨conversion, rest, ?_, ⟨hdigits, ?_, hm⟩, hconversion⟩⟩
            · show widthChar :: bytes = widthChar :: (bytes.takeWhile isDigit ++ modifiersText mods) ++
                conversion :: rest
              rw [List.cons_append, List.append_assoc, ← hrest, hsplit]
            · intro c hc
              apply hstop
              rw [hrest]
              cases htext : modifiersText mods with
              | nil =>
                  rw [htext] at hc
                  exact hc
              | cons b text =>
                  rw [htext] at hc
                  exact hc
      · exact ⟨[], .inr ⟨chr, bytes, rfl, trivial, hmod⟩⟩

/-- Every pattern consists of parts. -/
theorem exists_consists : ∀ (n : ℕ) (pattern : List UInt8), pattern.length ≤ n →
    ∃ segments unfinished, Consists pattern segments unfinished
  | _, [], _ => ⟨[], none, rfl, nofun, nofun⟩
  | n + 1, chr :: bytes, hn => by
      have hshort : bytes.length ≤ n := Nat.le_of_succ_le_succ hn
      by_cases hchr : chr = percent
      · obtain ⟨mods, ⟨hbytes, hm⟩ | ⟨conversion, rest, hbytes, hwf⟩⟩ :=
          exists_specifier n bytes hshort
        · refine ⟨[], some mods, ?_, nofun, ?_⟩
          · rw [hchr, hbytes]
            rfl
          · rintro _ ⟨⟩
            exact hm
        · have hless : rest.length ≤ n := by
            rw [hbytes, List.length_append, List.length_cons] at hshort
            omega
          obtain ⟨segments, unfinished, htext, hsegments, hunfinished⟩ :=
            exists_consists n rest hless
          refine ⟨.specifier mods conversion :: segments, unfinished, ?_, ?_, hunfinished⟩
          · rw [hchr, hbytes, htext, List.flatMap_cons, Segment.text]
            simp
          · intro segment hsegment
            rcases List.mem_cons.mp hsegment with rfl | hsegment
            · exact hwf
            · exact hsegments segment hsegment
      · obtain ⟨segments, unfinished, htext, hsegments, hunfinished⟩ :=
          exists_consists n bytes hshort
        refine ⟨.byte chr :: segments, unfinished, ?_, ?_, hunfinished⟩
        · rw [htext]
          rfl
        · intro segment hsegment
          rcases List.mem_cons.mp hsegment with rfl | hsegment
          · exact hchr
          · exact hsegments segment hsegment

/-! ## Running over a specifier -/

section Running

variable (nested : List UInt8 → List UInt8) (m : Memory) (args : ℕ → ℕ)

/-- `kprintf` is about to look at a byte as a specifier, not as a digit of a
width. -/
def Looking (mode : PrintMode) (bytes : List UInt8) : Prop :=
  mode = .printEscape ∨ mode = .printPadding ∧ ∀ c ∈ bytes.head?, isDigit c = false

theorem Looking.step {chr : UInt8} {bytes : List UInt8} (h : Looking p.mode (chr :: bytes)) :
    kprintfStep nested m args p chr =
      specifier nested m args { p with mode := .printDefault } chr := by
  have hdigit : ¬ (p.mode = .printPadding ∧ isDigit chr = true) := by
    rintro ⟨hmode, hchr⟩
    rcases h with hescape | ⟨-, hnot⟩
    · exact absurd (hescape.symm.trans hmode) nofun
    · exact absurd (hchr.symm.trans (hnot chr rfl)) nofun
  have hmode : p.mode = .printPadding ∨ p.mode = .printEscape :=
    h.elim .inr (fun hpadding => .inl hpadding.1)
  rw [kprintfStep, if_neg hdigit, if_pos hmode]

theorem specifier_flag (p : Printer) (f : Flag) :
    specifier nested m args p f.char =
      some { p with mode := .printEscape, state := f.apply p.state } := by
  cases f <;> rfl

theorem specifier_width (p : Printer) :
    specifier nested m args p widthChar =
      some { p with mode := .printPadding, state := { p.state with width := 0 } } := rfl

/-- The digits of a width are taken one by one. -/
theorem run_digits (digits : List UInt8) (hdigits : ∀ d ∈ digits, isDigit d = true) :
    ∀ p : Printer, p.mode = .printPadding →
      (digits ++ rest).foldlM (kprintfStep nested m args) p =
        rest.foldlM (kprintfStep nested m args)
          { p with state := { p.state with width := digits.foldl widthDigit p.state.width } } := by
  induction digits with
  | nil => exact fun p _ => rfl
  | cons d digits ih =>
      intro p hp
      have hstep : kprintfStep nested m args p d =
          some { p with state := { p.state with width := widthDigit p.state.width d } } :=
        if_pos ⟨hp, hdigits d List.mem_cons_self⟩
      rw [List.cons_append, List.foldlM_cons, hstep]
      exact ih (fun d' hd' => hdigits d' (List.mem_cons_of_mem _ hd')) _ hp

/-- Modifiers change the state and nothing else. -/
theorem run_modifiers (mods : List Modifier) :
    ∀ p : Printer, Looking p.mode (modifiersText mods ++ rest) → Munched mods rest →
      ∃ mode, Looking mode rest ∧
        (modifiersText mods ++ rest).foldlM (kprintfStep nested m args) p =
          rest.foldlM (kprintfStep nested m args)
            { p with mode := mode, state := mods.foldl Modifier.apply p.state } := by
  induction mods with
  | nil => exact fun p hp _ => ⟨p.mode, hp, rfl⟩
  | cons mod mods ih =>
      intro p hp hm
      cases mod with
      | flag f =>
          obtain ⟨mode, hmode, hrun⟩ :=
            ih { p with mode := .printEscape, state := f.apply p.state } (.inl rfl) hm
          refine ⟨mode, hmode, ?_⟩
          show ((f.char :: modifiersText mods) ++ rest).foldlM _ p = _
          rw [List.cons_append, List.foldlM_cons, hp.step nested m args, specifier_flag]
          exact hrun
      | width digits =>
          obtain ⟨hdigits, hstop, hm⟩ := hm
          obtain ⟨mode, hmode, hrun⟩ := ih { p with
              mode := .printPadding
              state := { p.state with width := digits.foldl widthDigit 0 } } (.inr ⟨rfl, hstop⟩) hm
          have htext : modifiersText (.width digits :: mods) ++ rest =
              widthChar :: (digits ++ (modifiersText mods ++ rest)) := by
            rw [modifiersText, List.flatMap_cons, Modifier.text, List.cons_append, List.cons_append,
              List.append_assoc]
            rfl
          refine ⟨mode, hmode, ?_⟩
          rw [htext] at hp ⊢
          rw [List.foldlM_cons, hp.step nested m args, specifier_width]
          exact (run_digits nested m args digits hdigits _ rfl).trans hrun

/-- The two patterns that `kprint_wstring` passes to `kprintf` write themselves. -/
def Plain (nested : List UInt8 → List UInt8) : Prop :=
  nested [0x1B, '<'.toUInt8] = [0x1B, '<'.toUInt8] ∧ nested [0x1B, '>'.toUInt8] = [0x1B, '>'.toUInt8]

theorem kprintWstring_plain {nested : List UInt8 → List UInt8} (hnested : Plain nested)
    (m : Memory) (state : PrintState) (word : ℕ) :
    kprintWstring nested m state word = kprintWstring id m state word := by
  unfold kprintWstring
  rw [hnested.1, hnested.2]
  rfl

/-- The printer behind a conversion. -/
def Printer.converted (p : Printer) (state : PrintState) (taken : ℕ) (text : List UInt8) :
    Printer :=
  ⟨.printDefault, state, p.next + taken, p.output ++ text⟩

/-- A conversion writes what it converts its argument to, takes the argument if it
has one, and goes back to `PRINT_DEFAULT`. -/
theorem specifier_conversion {nested : List UInt8 → List UInt8} (hnested : Plain nested)
    (m : Memory) (args : ℕ → ℕ) {conversion : UInt8}
    (hconversion : conversion ∉ modifierChars) (hp : p.mode = .printDefault) :
    ∃ state, specifier nested m args p conversion =
      (convert m p.state (args p.next) conversion).map
        (p.converted state (if conversion ∈ conversions then 1 else 0)) := by
  have hother : ∀ chr ∈ modifierChars, conversion ≠ chr :=
    fun chr hchr heq => hconversion (heq ▸ hchr)
  have hinteger : ∀ base, p.integer args base =
      p.converted (kprintInteger p.state (toInt (args p.next)) base).2 1
        (kprintInteger p.state (toInt (args p.next)) base).1 := by
    intro base
    rw [Printer.integer, Printer.converted, hp]
  have htext : ∀ text, { p.write text with next := p.next + 1 } = p.converted p.state 1 text := by
    intro text
    rw [Printer.write, Printer.converted, hp]
  unfold specifier convert
  rw [if_neg (hother _ (by decide)), if_neg (hother _ (by decide)), if_neg (hother _ (by decide)),
    if_neg (hother _ (by decide)), if_neg (hother _ (by decide)), if_neg (hother _ (by decide))]
  by_cases h₁ : conversion = '%'.toUInt8
  · rw [if_pos h₁, if_pos h₁, h₁]
    refine ⟨p.state, ?_⟩
    rw [Printer.write, hp]
    rfl
  rw [if_neg h₁, if_neg h₁]
  by_cases h₂ : conversion = 's'.toUInt8
  · rw [if_pos h₂, if_pos h₂, h₂]
    exact ⟨p.state, congrArg (Option.map · _) (funext htext)⟩
  rw [if_neg h₂, if_neg h₂]
  by_cases h₃ : conversion = 'S'.toUInt8
  · rw [if_pos h₃, if_pos h₃, h₃, kprintWstring_plain hnested]
    exact ⟨p.state, congrArg (Option.map · _) (funext htext)⟩
  rw [if_neg h₃, if_neg h₃]
  by_cases h₄ : conversion = 'b'.toUInt8
  · rw [if_pos h₄, if_pos h₄, h₄, hinteger]
    exact ⟨_, rfl⟩
  rw [if_neg h₄, if_neg h₄]
  by_cases h₅ : conversion = 'o'.toUInt8
  · rw [if_pos h₅, if_pos h₅, h₅, hinteger]
    exact ⟨_, rfl⟩
  rw [if_neg h₅, if_neg h₅]
  by_cases h₆ : conversion = 'd'.toUInt8 ∨ conversion = 'i'.toUInt8
  · have hmem : conversion ∈ conversions := by
      rcases h₆ with rfl | rfl <;> decide
    rw [if_pos h₆, if_pos h₆, if_pos hmem, hinteger]
    exact ⟨_, rfl⟩
  rw [if_neg h₆, if_neg h₆]
  by_cases h₇ : conversion = 'x'.toUInt8
  · rw [if_pos h₇, if_pos h₇, h₇, hinteger]
    exact ⟨_, rfl⟩
  rw [if_neg h₇, if_neg h₇]
  by_cases h₈ : conversion = 'c'.toUInt8
  · rw [if_pos h₈, if_pos h₈, h₈, htext]
    exact ⟨_, rfl⟩
  rw [if_neg h₈, if_neg h₈]
  have hnone : conversion ∉ conversions := by
    intro hmem
    simp only [conversions, List.mem_cons, List.not_mem_nil, or_false] at hmem
    tauto
  refine ⟨p.state, ?_⟩
  rw [if_neg hnone, Option.map_some, Printer.converted, List.append_nil, Nat.add_zero, ← hp]

/-! ## Running over a pattern -/

theorem Munched.congr {rest' : List UInt8} (hhead : rest'.head? = rest.head?) :
    ∀ mods : List Modifier, Munched mods rest → Munched mods rest'
  | [], _ => trivial
  | .flag _ :: mods, h => Munched.congr hhead mods h
  | .width _ :: mods, ⟨hdigits, hstop, hm⟩ => by
      refine ⟨hdigits, ?_, Munched.congr hhead mods hm⟩
      rwa [List.head?_append, hhead, ← List.head?_append]

/-- A part writes what it should, or does not return, and nothing of it is left but
the state. -/
theorem run_segment {nested : List UInt8 → List UInt8} (hnested : Plain nested)
    {segment : Segment} (hwf : segment.WellFormed)
    (rest : List UInt8) (hp : p.mode = .printDefault) :
    ∃ state, (segment.text ++ rest).foldlM (kprintfStep nested m args) p =
      (segment.output m (args p.next)).bind fun text =>
        rest.foldlM (kprintfStep nested m args) (p.converted state segment.arguments text) := by
  have hplain : ¬ (p.mode = .printPadding ∨ p.mode = .printEscape) := by
    rw [hp]
    exact fun h => h.elim nofun nofun
  cases segment with
  | byte b =>
      have hstep : kprintfStep nested m args p b = some (p.write [b]) := by
        rw [kprintfStep, if_neg (fun h => hplain (.inl h.1)), if_neg hplain]
        exact if_neg hwf
      have hwritten : p.write [b] = p.converted p.state 0 [b] := by
        rw [Printer.write, Printer.converted, hp]
        rfl
      refine ⟨p.state, ?_⟩
      show (b :: rest).foldlM _ p = _
      rw [List.foldlM_cons, hstep, hwritten]
      rfl
  | specifier mods conversion =>
      obtain ⟨hm, hconversion⟩ := hwf
      have hstep : kprintfStep nested m args p percent =
          some { p with mode := .printEscape, state := freshState } := by
        rw [kprintfStep, if_neg (fun h => hplain (.inl h.1)), if_neg hplain]
        exact if_pos rfl
      have hhead : (conversion :: rest).head? = [conversion].head? := rfl
      have hmunched : Munched mods (conversion :: rest) := Munched.congr hhead mods hm
      obtain ⟨mode, hmode, hrun⟩ := run_modifiers nested m args mods
        { p with mode := .printEscape, state := freshState } (.inl rfl) hmunched
      obtain ⟨state, hspecifier⟩ := specifier_conversion hnested m args
        (p := { p with mode := .printDefault, state := format mods }) hconversion rfl
      refine ⟨state, ?_⟩
      have htext : (Segment.specifier mods conversion).text ++ rest =
          percent :: (modifiersText mods ++ conversion :: rest) := by
        rw [Segment.text, List.cons_append, List.append_assoc]
        rfl
      rw [htext, List.foldlM_cons, hstep]
      refine hrun.trans ?_
      rw [List.foldlM_cons, Looking.step nested m args hmode]
      show (specifier nested m args { p with mode := .printDefault, state := format mods }
        conversion).bind _ = _
      rw [hspecifier]
      show _ = (convert m (format mods) (args p.next) conversion).bind _
      rw [Option.bind_map]
      rfl

theorem run_segments {nested : List UInt8 → List UInt8} (hnested : Plain nested) (segments : List Segment)
    (hwf : ∀ segment ∈ segments, segment.WellFormed) :
    ∀ p : Printer, p.mode = .printDefault →
      (∀ out, printed m args p.next segments = some out → ∃ state,
        (segments.flatMap Segment.text ++ rest).foldlM (kprintfStep nested m args) p =
          rest.foldlM (kprintfStep nested m args)
            (p.converted state (segments.map Segment.arguments).sum out)) ∧
      (printed m args p.next segments = none →
        (segments.flatMap Segment.text ++ rest).foldlM (kprintfStep nested m args) p = none) := by
  induction segments with
  | nil =>
      intro p hp
      refine ⟨?_, nofun⟩
      rintro _ ⟨⟩
      refine ⟨p.state, ?_⟩
      rw [Printer.converted, List.append_nil, ← hp]
      rfl
  | cons segment segments ih =>
      intro p hp
      obtain ⟨state, hrun⟩ := run_segment m args hnested (hwf segment List.mem_cons_self)
        (segments.flatMap Segment.text ++ rest) hp
      rw [List.flatMap_cons, List.append_assoc, hrun, printed, List.map_cons, List.sum_cons]
      rcases segment.output m (args p.next) with _ | text
      · exact ⟨nofun, fun _ => rfl⟩
      · obtain ⟨hsome, hnone⟩ := ih (fun segment hsegment =>
          hwf segment (List.mem_cons_of_mem _ hsegment)) (p.converted state segment.arguments text) rfl
        rw [Option.bind_some, Option.bind_some]
        rcases hprinted : printed m args (p.next + segment.arguments) segments with _ | out
        · exact ⟨nofun, fun _ => hnone hprinted⟩
        · refine ⟨?_, nofun⟩
          rintro _ ⟨⟩
          obtain ⟨state', hrest⟩ := hsome out hprinted
          refine ⟨state', hrest.trans ?_⟩
          rw [Printer.converted, Printer.converted, Printer.converted, List.append_assoc,
            Nat.add_assoc]

/-- A specifier that is cut off changes the mode and the state only. -/
theorem run_unfinished {unfinished : Option (List Modifier)}
    (hm : ∀ mods ∈ unfinished, Munched mods []) (hp : p.mode = .printDefault) :
    ∃ mode state, (unfinishedText unfinished).foldlM (kprintfStep nested m args) p =
      some { p with mode := mode, state := state } := by
  cases unfinished with
  | none => exact ⟨p.mode, p.state, rfl⟩
  | some mods =>
      have hplain : ¬ (p.mode = .printPadding ∨ p.mode = .printEscape) := by
        rw [hp]
        exact fun h => h.elim nofun nofun
      have hstep : kprintfStep nested m args p percent =
          some { p with mode := .printEscape, state := freshState } := by
        rw [kprintfStep, if_neg (fun h => hplain (.inl h.1)), if_neg hplain]
        exact if_pos rfl
      obtain ⟨mode, -, hrun⟩ := run_modifiers nested m args mods
        { p with mode := .printEscape, state := freshState } (.inl rfl) (hm mods rfl)
      refine ⟨mode, format mods, ?_⟩
      show (percent :: modifiersText mods).foldlM _ p = _
      rw [List.foldlM_cons, hstep]
      rw [List.append_nil] at hrun
      exact hrun

end Running

/-! ## Strings that end -/

theorem lengthLoop_isSome (zero : ℕ → Bool) :
    ∀ fuel length : ℕ, (lengthLoop zero fuel length).isSome ↔
      ∃ n < fuel, zero (length + n) = true
  | 0, length => iff_of_false nofun (fun h => Nat.not_lt_zero _ h.choose_spec.1)
  | fuel + 1, length => by
      unfold lengthLoop
      rcases hzero : zero length with _ | _
      · rw [if_neg nofun, lengthLoop_isSome zero fuel (length + 1)]
        constructor
        · rintro ⟨n, hn, h⟩
          exact ⟨n + 1, Nat.succ_lt_succ hn, by rwa [Nat.add_comm n 1, ← Nat.add_assoc]⟩
        · rintro ⟨n, hn, h⟩
          cases n with
          | zero => exact absurd (hzero.symm.trans h) nofun
          | succ n =>
              exact ⟨n, Nat.lt_of_succ_lt_succ hn, by rwa [Nat.add_assoc, Nat.add_comm 1]⟩
      · exact iff_of_true rfl ⟨0, Nat.succ_pos fuel, hzero⟩

theorem kprintString_isSome (m : Memory) (state : PrintState) (word : ℕ) :
    (kprintString m state word).isSome ↔ (word ≠ 0 → ∃ n < 2 ^ 31, load m (word + n) = 0) := by
  unfold kprintString
  split
  · rename_i hnull
    exact iff_of_true rfl (fun h => absurd hnull h)
  · rename_i hword
    rw [Option.isSome_map, strlen, lengthLoop_isSome]
    simp only [Nat.zero_add, decide_eq_true_eq, ne_eq, hword, not_false_eq_true, forall_true_left]

theorem kprintWstring_isSome (nested : List UInt8 → List UInt8) (m : Memory) (state : PrintState)
    (word : ℕ) : (kprintWstring nested m state word).isSome ↔
      (word ≠ 0 → ∃ n < 2 ^ 31, loadWide m (word + 2 * n) = 0) := by
  unfold kprintWstring
  simp only []
  split
  · rename_i hnull
    exact iff_of_true rfl (fun h => absurd hnull h)
  · rename_i hword
    rw [Option.isSome_map, wstrlen, lengthLoop_isSome]
    simp only [Nat.zero_add, decide_eq_true_eq, ne_eq, hword, not_false_eq_true, forall_true_left]

theorem Segment.output_isSome (m : Memory) (word : ℕ) (segment : Segment) :
    (segment.output m word).isSome ↔ segment.Readable m word := by
  cases segment with
  | byte b => exact iff_of_true rfl trivial
  | specifier mods conversion =>
      show (convert m (format mods) word conversion).isSome ↔ _ ∧ _
      unfold convert
      by_cases hs : conversion = 's'.toUInt8
      · rw [hs, if_neg (by decide), if_pos rfl, kprintString_isSome]
        exact ⟨fun h => ⟨fun _ => h, nofun⟩, fun h => h.1 rfl⟩
      by_cases hS : conversion = 'S'.toUInt8
      · rw [hS, if_neg (by decide), if_neg (by decide), if_pos rfl, kprintWstring_isSome]
        exact ⟨fun h => ⟨nofun, fun _ => h⟩, fun h => h.2 rfl⟩
      · rw [if_neg hs, if_neg hS]
        apply iff_of_true
        · split
          · rfl
          split
          · rfl
          split
          · rfl
          split
          · rfl
          split
          · rfl
          split <;> rfl
        · exact ⟨fun h => absurd h hs, fun h => absurd h hS⟩

theorem printed_isSome (m : Memory) (args : ℕ → ℕ) (segments : List Segment) :
    ∀ next, (printed m args next segments).isSome ↔ AllReadable m args next segments := by
  induction segments with
  | nil => exact fun next => iff_of_true rfl trivial
  | cons segment segments ih =>
      intro next
      have hsegment := segment.output_isSome m (args next)
      rw [printed, AllReadable, ← hsegment, ← ih]
      rcases segment.output m (args next) with _ | text
      · exact iff_of_false nofun (fun h => absurd h.1 nofun)
      · rw [Option.bind_some, Option.isSome_map]
        exact (and_iff_right rfl).symm

/-! ## `kprintf` -/

/-- What `kprintf` passes to itself writes itself. -/
theorem nested_plain (nested : List UInt8 → List UInt8) (m : Memory) (stack : PrintState)
    (args : ℕ → ℕ) :
    Plain fun inner => ((kprintfWith nested m stack args inner).map Printer.output).getD [] :=
  ⟨rfl, rfl⟩

theorem kprintfWith_plain {nested : List UInt8 → List UInt8} (hnested : Plain nested)
    (m : Memory) (stack : PrintState) (args : ℕ → ℕ) (pattern : List UInt8) :
    kprintfWith nested m stack args pattern = kprintfWith id m stack args pattern := by
  have hstep : kprintfStep nested m args = kprintfStep id m args := by
    funext p chr
    unfold kprintfStep specifier
    simp only [kprintWstring_plain hnested]
  rw [kprintfWith, hstep, kprintfWith]

/-- `kprintf` is what it passes to itself. -/
theorem kprintf_eq (m : Memory) (stack : PrintState) (args : ℕ → ℕ) (pattern : List UInt8) :
    kprintf m stack args pattern =
      kprintfWith (fun inner => ((kprintf m stack args inner).map Printer.output).getD []) m stack
        args pattern := by
  have hself : Plain fun inner => ((kprintf m stack args inner).map Printer.output).getD [] :=
    nested_plain _ m stack args
  rw [kprintfWith_plain hself, kprintf, kprintfWith_plain (nested_plain _ m stack args)]

/-- Every pattern consists of bytes and specifiers, and `kprintf` writes what these
write, in order: a byte itself, a recognised specifier its own conversion of the
next argument, any other specifier nothing.  It takes one argument for each of
them that converts one, and returns if the strings among these end. -/
theorem kprintf_pattern (m : Memory) (stack : PrintState) (args : ℕ → ℕ) (pattern : List UInt8) :
    ∃ segments unfinished, Consists pattern segments unfinished ∧
      (kprintf m stack args pattern).map (fun p => (p.output, p.next)) =
        (printed m args 0 segments).map (fun out => (out, (segments.map Segment.arguments).sum)) ∧
      ((kprintf m stack args pattern).isSome ↔ AllReadable m args 0 segments) := by
  obtain ⟨segments, unfinished, hconsists⟩ := exists_consists pattern.length pattern le_rfl
  obtain ⟨htext, hsegments, hunfinished⟩ := id hconsists
  have hnested := nested_plain (fun _ => []) m stack args
  obtain ⟨hsome, hnone⟩ := run_segments m args hnested segments hsegments
    ⟨.printDefault, stack, 0, []⟩ rfl
  have hresult : (kprintf m stack args pattern).map (fun p => (p.output, p.next)) =
      (printed m args 0 segments).map
        (fun out => (out, (segments.map Segment.arguments).sum)) := by
    rw [kprintf, kprintfWith, htext]
    rcases hprinted : printed m args 0 segments with _ | out
    · rw [hnone hprinted]
      rfl
    · obtain ⟨state, hrun⟩ := hsome out hprinted
      obtain ⟨mode, state', hend⟩ := run_unfinished _ m args hunfinished
        (p := Printer.converted ⟨.printDefault, stack, 0, []⟩ state
          (segments.map Segment.arguments).sum out) rfl
      rw [hrun, hend, Option.map_some, Option.map_some, Printer.converted, List.nil_append,
        Nat.zero_add]
  refine ⟨segments, unfinished, hconsists, hresult, ?_⟩
  have hreturns := congrArg Option.isSome hresult
  rw [Option.isSome_map, Option.isSome_map] at hreturns
  rw [hreturns, printed_isSome]

end Print

end Neos
