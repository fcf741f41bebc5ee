import Mathlib.Logic.Function.Basic
import Mathlib.Order.Lattice.Nat
import Neos.Library.ByteRange

/-!
# Files as sequences of bytes

A file is a list of bytes with a position.  Reads and writes start at the position
and move it; a write overwrites what it meets and goes on behind the end.  A store
holds any number of files, and a call concerns one of them.
-/

namespace Neos

open ByteRange

/-- A file and the position of its reader and writer. -/
structure ByteFile where
  bytes : List UInt8
  position : ℕ
deriving DecidableEq

namespace ByteFile

variable {f : ByteFile} {m m' : ℕ → UInt8} {p k : ℕ}

/-- The number of bytes. -/
def size (f : ByteFile) : ℕ := f.bytes.length

/-- The position is in the file or at its end. -/
def Within (f : ByteFile) : Prop := f.position ≤ f.size

/-- The bytes that a read of `n` bytes gets. -/
def ahead (f : ByteFile) (n : ℕ) : List UInt8 := (f.bytes.drop f.position).take n

/-- The file after a read. -/
def read (f : ByteFile) (n : ℕ) : ByteFile :=
  { f with position := f.position + (f.ahead n).length }

/-- The file after a write. -/
def write (f : ByteFile) (data : List UInt8) : ByteFile :=
  { bytes := f.bytes.take f.position ++ data ++ f.bytes.drop (f.position + data.length)
    position := f.position + data.length }

/-- The file after a change of the position. -/
def seek (f : ByteFile) (position : ℕ) : ByteFile := { f with position := position }

/-- A file without bytes. -/
def empty : ByteFile := ⟨[], 0⟩

theorem length_ahead (f : ByteFile) (n : ℕ) : (f.ahead n).length = min n (f.size - f.position) := by
  rw [ahead, List.length_take, List.length_drop, size]

theorem within_read (h : f.Within) (n : ℕ) : (f.read n).Within := by
  have hlen := f.length_ahead n
  unfold Within read size at *
  dsimp only
  omega

theorem size_write (h : f.Within) (data : List UInt8) :
    (f.write data).size = max f.size (f.position + data.length) := by
  unfold Within size at h
  rw [size, write, List.length_append, List.length_append, List.length_take, List.length_drop,
    size]
  omega

theorem within_write (h : f.Within) (data : List UInt8) : (f.write data).Within := by
  unfold Within
  rw [size_write h]
  exact le_max_right _ _

theorem within_empty : empty.Within := le_refl _

/-- What was written is read from the place where it was written. -/
theorem ahead_write (h : f.Within) (data : List UInt8) :
    ((f.write data).seek f.position).ahead data.length = data := by
  have hlen : (f.bytes.take f.position).length = f.position := by
    rw [List.length_take]
    exact min_eq_left h
  rw [ahead, seek, write, List.append_assoc]
  dsimp only
  rw [List.drop_left' hlen, List.take_left' rfl]

/-! ## Files held in a memory -/

/-- A byte of the file that a memory holds from an address on. -/
theorem getElem?_readBytes (m : ℕ → UInt8) (a n i : ℕ) :
    (readBytes m a n)[i]? = if i < n then some (m (a + i)) else none := by
  unfold readBytes
  rw [List.getElem?_map]
  split
  · next h => rw [List.getElem?_range h, Option.map_some]
  · next h => rw [List.getElem?_eq_none (by rw [List.length_range]; omega), Option.map_none]

/-- The bytes read from a file in a memory are bytes of the memory. -/
theorem ahead_readBytes (m : ℕ → UInt8) (k p n : ℕ) :
    (⟨readBytes m 0 k, p⟩ : ByteFile).ahead n = readBytes m p (min n (k - p)) := by
  apply List.ext_getElem?
  intro i
  rw [ahead, List.getElem?_take, List.getElem?_drop, getElem?_readBytes, getElem?_readBytes]
  dsimp only
  by_cases hi : i < min n (k - p)
  · rw [if_pos (by omega), if_pos (by omega), if_pos hi, Nat.zero_add]
  · rw [if_neg hi]
    split
    · rw [if_neg (by omega)]
    · rfl

/-- A memory that has got the data at the position holds the file after the write. -/
theorem write_readBytes {bs : List UInt8} (hp : p ≤ k)
    (hin : ∀ j, p ≤ j → j < p + bs.length → m' j = bs.getD (j - p) 0)
    (hout : ∀ j, j < k → ¬ (p ≤ j ∧ j < p + bs.length) → m' j = m j) :
    (⟨readBytes m 0 k, p⟩ : ByteFile).write bs =
      ⟨readBytes m' 0 (max k (p + bs.length)), p + bs.length⟩ := by
  rw [write, mk.injEq]
  refine ⟨?_, rfl⟩
  apply List.ext_getElem?
  intro i
  rw [getElem?_readBytes, Nat.zero_add, List.append_assoc, List.getElem?_append]
  have hlen : ((readBytes m 0 k).take p).length = p := by
    rw [List.length_take, length_readBytes, min_eq_left hp]
  rw [hlen]
  split
  · next hip =>
      rw [List.getElem?_take_of_lt hip, getElem?_readBytes, if_pos (by omega), if_pos (by omega),
        Nat.zero_add, hout i (by omega) (by omega)]
  · next hip =>
      rw [List.getElem?_append]
      split
      · next hdata =>
          rw [if_pos (by omega), hin i (by omega) (by omega), List.getElem?_eq_getElem hdata,
            List.getD_eq_getElem _ _ hdata]
      · next hdata =>
          rw [List.getElem?_drop, getElem?_readBytes, Nat.zero_add,
            show p + bs.length + (i - p - bs.length) = i by omega]
          by_cases hk : i < k
          · rw [if_pos hk, if_pos (by omega), hout i hk (by omega)]
          · rw [if_neg hk, if_neg (by omega)]

end ByteFile

/-! ## Stores -/

/-- Files by their names; a file that does not exist is `none`. -/
abbrev ByteFiles (ι : Type*) := ι → Option ByteFile

namespace ByteFiles

variable {ι β : Type*} [DecidableEq ι]

/-- A call on one file: it answers, and leaves the file or removes it. -/
def on (t : ByteFiles ι) (i : ι) (call : ByteFile → β × Option ByteFile) :
    Option (β × ByteFiles ι) :=
  (t i).map fun f => ((call f).1, Function.update t i (call f).2)

theorem on_some {t : ByteFiles ι} {i : ι} {f : ByteFile} (h : t i = some f)
    (call : ByteFile → β × Option ByteFile) :
    t.on i call = some ((call f).1, Function.update t i (call f).2) := by
  rw [on, h, Option.map_some]

/-- The other files stay as they are. -/
theorem on_other {t t' : ByteFiles ι} {i j : ι} {call : ByteFile → β × Option ByteFile} {b : β}
    (h : t.on i call = some (b, t')) (hne : j ≠ i) : t' j = t j := by
  obtain ⟨f, -, heq⟩ := Option.map_eq_some_iff.mp h
  obtain ⟨-, rfl⟩ := Prod.mk.inj heq
  exact Function.update_of_ne hne _ _

end ByteFiles

end Neos
