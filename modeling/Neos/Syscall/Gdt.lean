import Mathlib.Data.Nat.Bitwise
import Mathlib.Tactic.Ring

/-!
# Segment descriptors of `gdt.c`

`gput` packs a base and a limit into a pair of descriptors.  The templates it packs
them over are written with their two halves exchanged, so the access bytes of the
descriptors come out zero; `gad` stores fixed descriptors in place of those it
packs.
-/

namespace Neos.Syscall

/-- `EMPTY_GDT_ENTRY`. -/
def emptyGdtEntry : UInt64 := 0x000000000040F300

/-- `EMPTY_CODE`. -/
def emptyCode : UInt64 := 0x000000000040FB00

/-- `MAX_PROCESS_COUNT`. -/
def maxProcessCount : ℕ := 1023

/-- The `mask` of `gput` and `gad`. -/
def gputMask (offset size : UInt32) : UInt64 :=
  let size := size >>> 10
  let sizeLow := (size <<< 16) >>> 16
  let sizeHigh := size >>> 16
  let offsetLow := (offset <<< 16) >>> 16
  let offsetHighmid := offset >>> 16
  let offsetMid := offsetHighmid &&& 0xFF
  let offsetHigh := offsetHighmid >>> 8
  let mask := offsetHigh.toUInt64
  let mask := mask <<< 8
  let mask := mask ||| sizeHigh.toUInt64
  let mask := mask <<< 16
  let mask := mask ||| offsetMid.toUInt64
  let mask := mask <<< 16
  let mask := mask ||| offsetLow.toUInt64
  let mask := mask <<< 16
  mask ||| sizeLow.toUInt64

/-- The indices that `gput` looks at: 3, 5 and so on, below `GDT_SIZE + 1`. -/
def gputSlots : List ℤ := (List.range maxProcessCount).map fun k : ℕ => 2 * (k : ℤ) + 3

/-- `gput`; it returns no number when no pair is free, and stores nothing then. -/
def gput (gdt : ℤ → ℕ) (offset size : UInt32) : Option (ℤ × (ℤ → ℕ)) :=
  (gputSlots.find? fun i => gdt i = emptyGdtEntry.toNat).map fun i =>
    let mask := gputMask offset size
    let code := emptyCode ||| mask
    let data := emptyGdtEntry ||| mask
    (i, fun j => if j = i + 1 then data.toNat else if j = i then code.toNat else gdt j)

/-- `gad`: the base and the size are packed into a descriptor, but the segments
of the kernel are stored. -/
def gad (gdt : ℤ → ℕ) (i : ℤ) (_offset _size : ℕ) : ℤ → ℕ := fun j =>
  if j = i + 1 then 0x0000FFFF00CF9300 else if j = i then 0x0000FFFF00CF9B00 else gdt j

/-! ## The layout of a descriptor -/

/-- The limit, in bits 0 to 15 and 48 to 51. -/
def descriptorLimit (entry : ℕ) : ℕ := entry % 2 ^ 16 + entry / 2 ^ 48 % 2 ^ 4 * 2 ^ 16

/-- The base, in bits 16 to 39 and 56 to 63. -/
def descriptorBase (entry : ℕ) : ℕ := entry / 2 ^ 16 % 2 ^ 24 + entry / 2 ^ 56 % 2 ^ 8 * 2 ^ 24

/-- The access byte, in bits 40 to 47. -/
def descriptorAccess (entry : ℕ) : ℕ := entry / 2 ^ 40 % 2 ^ 8

/-- The flags, in bits 52 to 55. -/
def descriptorFlags (entry : ℕ) : ℕ := entry / 2 ^ 52 % 2 ^ 4

/-- A present segment of code or of data, with some flags. -/
structure Describes (entry : ℕ) (executable : Bool) (flags : ℕ) (offset size : UInt32) : Prop where
  present : (descriptorAccess entry).testBit 7 = true
  segment : (descriptorAccess entry).testBit 4 = true
  executable : (descriptorAccess entry).testBit 3 = executable
  base : descriptorBase entry = offset.toNat
  limit : descriptorLimit entry = size.toNat / 1024
  flags : descriptorFlags entry = flags

/-! ## The mask -/

/-- A field is put behind what is packed already. -/
theorem toNat_packed (mask shift : UInt64) (field : UInt32) (hshift : shift.toNat < 64)
    (hmask : mask.toNat * 2 ^ shift.toNat < 2 ^ 64) (hfield : field.toNat < 2 ^ shift.toNat) :
    (mask <<< shift ||| field.toUInt64).toNat = mask.toNat * 2 ^ shift.toNat + field.toNat := by
  rw [UInt64.toNat_or, UInt64.toNat_shiftLeft, Nat.mod_eq_of_lt hshift, Nat.shiftLeft_eq,
    Nat.mod_eq_of_lt hmask, UInt32.toNat_toUInt64, ← Nat.shiftLeft_eq,
    Nat.shiftLeft_add_eq_or_of_lt hfield]

theorem toNat_lowHalf (word : UInt32) : ((word <<< 16) >>> 16).toNat = word.toNat % 2 ^ 16 := by
  have hword := word.toNat_lt
  rw [UInt32.toNat_shiftRight, UInt32.toNat_shiftLeft]
  simp only [UInt32.reduceToNat, Nat.reduceMod, Nat.shiftLeft_eq, Nat.shiftRight_eq_div_pow]
  omega

/-- The fields that are packed. -/
theorem toNat_gputMask (offset size : UInt32) :
    (gputMask offset size).toNat =
      size.toNat / 2 ^ 10 % 2 ^ 16 + offset.toNat % 2 ^ 16 * 2 ^ 16 +
        offset.toNat / 2 ^ 16 % 2 ^ 8 * 2 ^ 32 + size.toNat / 2 ^ 26 * 2 ^ 48 +
        offset.toNat / 2 ^ 24 * 2 ^ 56 := by
  have hoffset := offset.toNat_lt
  have hsize := size.toNat_lt
  have hsizeLow : ((size >>> 10 <<< 16) >>> 16).toNat = size.toNat / 2 ^ 10 % 2 ^ 16 := by
    rw [toNat_lowHalf, UInt32.toNat_shiftRight]
    exact congrArg (· % 2 ^ 16) (Nat.shiftRight_eq_div_pow _ 10)
  have hsizeHigh : (size >>> 10 >>> 16).toNat = size.toNat / 2 ^ 26 := by
    rw [UInt32.toNat_shiftRight, UInt32.toNat_shiftRight]
    exact (Nat.shiftRight_add _ 10 16).symm.trans (Nat.shiftRight_eq_div_pow _ 26)
  have hhighmid : (offset >>> 16).toNat = offset.toNat / 2 ^ 16 := by
    rw [UInt32.toNat_shiftRight]
    exact Nat.shiftRight_eq_div_pow _ 16
  have hoffsetMid : (offset >>> 16 &&& 0xFF).toNat = offset.toNat / 2 ^ 16 % 2 ^ 8 := by
    rw [UInt32.toNat_and, hhighmid]
    exact Nat.and_two_pow_sub_one_eq_mod _ 8
  have hoffsetHigh : (offset >>> 16 >>> 8).toNat = offset.toNat / 2 ^ 24 := by
    rw [UInt32.toNat_shiftRight, UInt32.toNat_shiftRight]
    exact (Nat.shiftRight_add _ 16 8).symm.trans (Nat.shiftRight_eq_div_pow _ 24)
  have hshift₈ : (8 : UInt64).toNat = 8 := rfl
  have hshift₁₆ : (16 : UInt64).toNat = 16 := rfl
  have h₁ := toNat_packed (offset >>> 16 >>> 8).toUInt64 8 (size >>> 10 >>> 16) (by decide)
    (by rw [UInt32.toNat_toUInt64, hoffsetHigh, hshift₈]; omega)
    (by rw [hsizeHigh, hshift₈]; omega)
  rw [UInt32.toNat_toUInt64, hoffsetHigh, hsizeHigh, hshift₈] at h₁
  have h₂ := toNat_packed _ 16 (offset >>> 16 &&& 0xFF) (by decide)
    (by rw [h₁, hshift₁₆]; omega) (by rw [hoffsetMid, hshift₁₆]; omega)
  rw [h₁, hoffsetMid, hshift₁₆] at h₂
  have h₃ := toNat_packed _ 16 ((offset <<< 16) >>> 16) (by decide)
    (by rw [h₂, hshift₁₆]; omega) (by rw [toNat_lowHalf, hshift₁₆]; omega)
  rw [h₂, toNat_lowHalf, hshift₁₆] at h₃
  have h₄ := toNat_packed _ 16 ((size >>> 10 <<< 16) >>> 16) (by decide)
    (by rw [h₃, hshift₁₆]; omega) (by rw [hsizeLow, hshift₁₆]; omega)
  rw [h₃, hsizeLow, hshift₁₆] at h₄
  refine h₄.trans ?_
  ring

/-- The fields of a descriptor whose access byte is empty. -/
theorem descriptor_fields {sizeLow offsetLow offsetMid sizeHigh offsetHigh entry : ℕ}
    (h₁ : sizeLow < 2 ^ 16) (h₂ : offsetLow < 2 ^ 16) (h₃ : offsetMid < 2 ^ 8)
    (h₄ : sizeHigh < 2 ^ 8) (h₅ : offsetHigh < 2 ^ 8)
    (h : entry = sizeLow + offsetLow * 2 ^ 16 + offsetMid * 2 ^ 32 + sizeHigh * 2 ^ 48 +
      offsetHigh * 2 ^ 56) :
    descriptorBase entry = offsetLow + offsetMid * 2 ^ 16 + offsetHigh * 2 ^ 24 ∧
      descriptorAccess entry = 0 ∧
      descriptorLimit entry = sizeLow + sizeHigh % 2 ^ 4 * 2 ^ 16 ∧
      descriptorFlags entry = sizeHigh / 2 ^ 4 := by
  have h16 : entry / 2 ^ 16 = offsetLow + offsetMid * 2 ^ 16 + sizeHigh * 2 ^ 32 +
      offsetHigh * 2 ^ 40 := by omega
  have h40 : entry / 2 ^ 40 = sizeHigh * 2 ^ 8 + offsetHigh * 2 ^ 16 := by omega
  have h48 : entry / 2 ^ 48 = sizeHigh + offsetHigh * 2 ^ 8 := by omega
  have h52 : entry / 2 ^ 52 = sizeHigh / 2 ^ 4 + offsetHigh * 2 ^ 4 := by omega
  have h56 : entry / 2 ^ 56 = offsetHigh := by omega
  rw [descriptorBase, descriptorAccess, descriptorLimit, descriptorFlags, h16, h40, h48, h52, h56]
  refine ⟨?_, ?_, ?_, ?_⟩ <;> omega

/-- The base is packed where it belongs, and nothing into the access byte; the
limit is right if it fits into its field, and runs into the flags otherwise. -/
theorem gputMask_fields (offset size : UInt32) :
    descriptorBase (gputMask offset size).toNat = offset.toNat ∧
      descriptorAccess (gputMask offset size).toNat = 0 ∧
      (descriptorLimit (gputMask offset size).toNat = size.toNat / 1024 ↔ size.toNat < 2 ^ 30) ∧
      descriptorFlags (gputMask offset size).toNat = size.toNat / 2 ^ 30 := by
  have hoffset := offset.toNat_lt
  have hsize := size.toNat_lt
  obtain ⟨hbase, haccess, hlimit, hflags⟩ := descriptor_fields (by omega) (by omega) (by omega)
    (by omega) (by omega) (toNat_gputMask offset size)
  rw [hbase, haccess, hlimit, hflags]
  refine ⟨?_, rfl, ?_, ?_⟩ <;> omega

/-! ## The pairs that are stored -/

theorem gput_eq_some {gdt gdt' : ℤ → ℕ} {offset size : UInt32} {slot : ℤ}
    (h : gput gdt offset size = some (slot, gdt')) :
    gdt' slot = (emptyCode ||| gputMask offset size).toNat ∧
      gdt' (slot + 1) = (emptyGdtEntry ||| gputMask offset size).toNat := by
  obtain ⟨i, -, heq⟩ := Option.map_eq_some_iff.mp h
  cases heq
  refine ⟨?_, if_pos rfl⟩
  show (if slot = slot + 1 then _ else _) = _
  rw [if_neg (by omega), if_pos rfl]

/-- The templates leave the access byte empty. -/
theorem descriptorAccess_or (offset size : UInt32) {template : UInt64}
    (htemplate : template.toNat < 2 ^ 40) :
    descriptorAccess (template ||| gputMask offset size).toNat = 0 := by
  have hmask := (gputMask_fields offset size).2.1
  unfold descriptorAccess at *
  rw [UInt64.toNat_or, ← Nat.shiftRight_eq_div_pow, Nat.shiftRight_or_distrib,
    Nat.shiftRight_eq_div_pow, Nat.div_eq_of_lt htemplate, Nat.zero_or,
    Nat.shiftRight_eq_div_pow, hmask]

theorem not_describes {template : UInt64} (htemplate : template.toNat < 2 ^ 40)
    (executable : Bool) (flags : ℕ) (offset size : UInt32) :
    ¬ Describes (template ||| gputMask offset size).toNat executable flags offset size := by
  intro hdescribes
  have hpresent := hdescribes.present
  rw [descriptorAccess_or offset size htemplate, Nat.zero_testBit] at hpresent
  exact absurd hpresent nofun

/-- No pair that `gput` stores is a pair of segments that are present, and `gad`
never stores the pair that `gput` does. -/
theorem gput_gad_never {gdt gdt' : ℤ → ℕ} {offset size : UInt32} {slot : ℤ}
    (h : gput gdt offset size = some (slot, gdt')) :
    (∀ flags, ¬ Describes (gdt' slot) true flags offset size) ∧
      (∀ flags, ¬ Describes (gdt' (slot + 1)) false flags offset size) ∧
      ∀ (gdt₂ : ℤ → ℕ) (i : ℤ),
        gad gdt₂ i offset.toNat size.toNat i ≠ gdt' slot ∧
          gad gdt₂ i offset.toNat size.toNat (i + 1) ≠ gdt' (slot + 1) := by
  obtain ⟨hcode, hdata⟩ := gput_eq_some h
  have hbit : ∀ template : UInt64, template.toNat.testBit 13 = true →
      (template ||| gputMask offset size).toNat.testBit 13 = true := by
    intro template htemplate
    rw [UInt64.toNat_or, Nat.testBit_or, htemplate, Bool.true_or]
  refine ⟨fun flags => ?_, fun flags => ?_, fun gdt₂ i => ⟨fun heq => ?_, fun heq => ?_⟩⟩
  · rw [hcode]
    exact not_describes (by decide) true flags offset size
  · rw [hdata]
    exact not_describes (by decide) false flags offset size
  · -- the ring of the kernel's segments is not that of the templates
    have hring := hbit emptyCode (by decide)
    rw [← hcode, ← heq, gad, if_neg (by omega), if_pos rfl] at hring
    exact absurd hring (by decide)
  · have hring := hbit emptyGdtEntry (by decide)
    rw [← hdata, ← heq, gad, if_pos rfl] at hring
    exact absurd hring (by decide)

/-- The first pair is taken if it is free. -/
theorem exists_gput (gdt : ℤ → ℕ) (hfree : gdt 3 = emptyGdtEntry.toNat) (offset size : UInt32) :
    ∃ gdt', gput gdt offset size = some (3, gdt') := by
  have hslots : gputSlots = 3 :: ((List.range 1022).map Nat.succ).map fun k : ℕ => 2 * (k : ℤ) + 3 := by
    rw [gputSlots, maxProcessCount, List.range_succ_eq_map]
    rfl
  have hfind : (gputSlots.find? fun i => gdt i = emptyGdtEntry.toNat) = some 3 := by
    rw [hslots, List.find?_cons_of_pos (by simpa using hfree)]
  rw [gput, hfind]
  exact ⟨_, rfl⟩

theorem gput_gad_never_flat :
    ∃ gdt', gput (fun _ => emptyGdtEntry.toNat) 0 0xFFFFFFFF = some (3, gdt') ∧
      (∀ flags, ¬ Describes (gdt' 3) true flags 0 0xFFFFFFFF) ∧
      (∀ flags, ¬ Describes (gdt' 4) false flags 0 0xFFFFFFFF) ∧
      ∀ (gdt₂ : ℤ → ℕ) (i : ℤ),
        gad gdt₂ i (0 : UInt32).toNat (0xFFFFFFFF : UInt32).toNat i ≠ gdt' 3 ∧
          gad gdt₂ i (0 : UInt32).toNat (0xFFFFFFFF : UInt32).toNat (i + 1) ≠ gdt' 4 := by
  obtain ⟨gdt', h⟩ := exists_gput (fun _ => emptyGdtEntry.toNat) rfl 0 0xFFFFFFFF
  exact ⟨gdt', h, gput_gad_never h⟩

/-- No flags are those of all pairs that `gput` stores: the flat segments are not
present. -/
theorem flat_segments_absent :
    ¬ ∃ flags, ∀ (gdt gdt' : ℤ → ℕ) (offset size : UInt32) (slot : ℤ),
      gput gdt offset size = some (slot, gdt') →
        Describes (gdt' slot) true flags offset size ∧
          Describes (gdt' (slot + 1)) false flags offset size ∧
          ∀ (gdt₂ : ℤ → ℕ) (i : ℤ),
            gad gdt₂ i offset.toNat size.toNat i = gdt' slot ∧
              gad gdt₂ i offset.toNat size.toNat (i + 1) = gdt' (slot + 1) := by
  rintro ⟨flags, hall⟩
  obtain ⟨gdt', h⟩ := exists_gput (fun _ => emptyGdtEntry.toNat) rfl 0 0xFFFFFFFF
  have hcode := (hall _ gdt' 0 0xFFFFFFFF 3 h).1
  rw [(gput_eq_some h).1] at hcode
  exact not_describes (by decide) true flags 0 0xFFFFFFFF hcode

end Neos.Syscall
