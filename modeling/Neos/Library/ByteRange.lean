import Mathlib.Data.Nat.Bitwise
import Mathlib.Data.List.Basic

/-!
# Ranges of bytes

A memory or a disk is a function from addresses to bytes.  A range is read into
a list and written from a list; what a write leaves behind is described once
for the addresses inside the range and once for those outside.  Integers of
any width are stored least significant byte first.
-/

namespace Neos.ByteRange

variable {m : ℕ → UInt8} {a n x : ℕ} {bs : List UInt8}

/-- The bytes of a range. -/
def readBytes (m : ℕ → UInt8) (a n : ℕ) : List UInt8 :=
  (List.range n).map fun i => m (a + i)

/-- Store bytes one after the other. -/
def writeBytes (m : ℕ → UInt8) (a : ℕ) (bs : List UInt8) : ℕ → UInt8 :=
  fun x => if a ≤ x ∧ x < a + bs.length then bs.getD (x - a) 0 else m x

/-- The value of bytes, the least significant one first. -/
def leValue : List UInt8 → ℕ
  | [] => 0
  | b :: bs => b.toNat + 2 ^ 8 * leValue bs

/-- The bytes of a value, the least significant one first. -/
def leBytes : ℕ → ℕ → List UInt8
  | 0, _ => []
  | n + 1, v => UInt8.ofNat (v % 2 ^ 8) :: leBytes n (v / 2 ^ 8)

@[simp] theorem length_readBytes (m : ℕ → UInt8) (a n : ℕ) : (readBytes m a n).length = n := by
  simp [readBytes]

@[simp] theorem length_leBytes (n v : ℕ) : (leBytes n v).length = n := by
  induction n generalizing v with
  | zero => rfl
  | succ n ih => rw [leBytes, List.length_cons, ih]

theorem getD_readBytes (m : ℕ → UInt8) (a : ℕ) {i n : ℕ} (h : i < n) :
    (readBytes m a n).getD i 0 = m (a + i) := by
  rw [List.getD_eq_getElem _ _ (by simpa using h)]
  simp [readBytes]

/-- Two ranges with the same bytes are read alike. -/
theorem readBytes_congr {m' : ℕ → UInt8} {b : ℕ} (h : ∀ i, i < n → m (a + i) = m' (b + i)) :
    readBytes m a n = readBytes m' b n := by
  apply List.map_congr_left
  intro i hi
  exact h i (List.mem_range.mp hi)

/-- A range is read in two parts. -/
theorem readBytes_add (m : ℕ → UInt8) (a n k : ℕ) :
    readBytes m a (n + k) = readBytes m a n ++ readBytes m (a + n) k := by
  rw [readBytes, readBytes, readBytes, List.range_add, List.map_append, List.map_map]
  congr 1
  apply List.map_congr_left
  intro i _
  rw [Function.comp_apply, Nat.add_assoc]

/-- A write leaves the addresses outside its range alone. -/
theorem writeBytes_outside (h : x < a ∨ a + bs.length ≤ x) : writeBytes m a bs x = m x := by
  unfold writeBytes
  rw [if_neg (by omega)]

/-- A write stores its bytes in order. -/
theorem writeBytes_inside {i : ℕ} (h : i < bs.length) :
    writeBytes m a bs (a + i) = bs.getD i 0 := by
  unfold writeBytes
  rw [if_pos (by omega), Nat.add_sub_cancel_left]

@[simp] theorem writeBytes_nil (m : ℕ → UInt8) (a : ℕ) : writeBytes m a [] = m := by
  funext x
  exact writeBytes_outside (by rw [List.length_nil]; omega)

/-- A range that a write does not meet is read as before. -/
theorem readBytes_writeBytes_of_disjoint {b : ℕ} (h : a + n ≤ b ∨ b + bs.length ≤ a) :
    readBytes (writeBytes m b bs) a n = readBytes m a n := by
  apply readBytes_congr
  intro i hi
  exact writeBytes_outside (by omega)

/-- What was written is read back. -/
theorem readBytes_writeBytes_self (m : ℕ → UInt8) (a : ℕ) (bs : List UInt8) :
    readBytes (writeBytes m a bs) a bs.length = bs := by
  apply List.ext_getElem
  · exact length_readBytes _ _ _
  · intro i h₁ h₂
    have hread := getD_readBytes (writeBytes m a bs) a h₂
    rw [writeBytes_inside h₂, List.getD_eq_getElem _ _ h₁, List.getD_eq_getElem _ _ h₂] at hread
    exact hread

theorem leValue_lt (bs : List UInt8) : leValue bs < 2 ^ (8 * bs.length) := by
  induction bs with
  | nil => decide
  | cons b bs ih =>
      have hb := b.toNat_lt
      have hpow : 2 ^ (8 * (b :: bs).length) = 2 ^ 8 * 2 ^ (8 * bs.length) := by
        rw [List.length_cons, ← pow_add]
        congr 1
        omega
      rw [leValue, hpow]
      omega

/-- A value that fits is read back from its bytes. -/
theorem leValue_leBytes (n v : ℕ) : leValue (leBytes n v) = v % 2 ^ (8 * n) := by
  induction n generalizing v with
  | zero => rw [leBytes, leValue, Nat.mul_zero, pow_zero, Nat.mod_one]
  | succ n ih =>
      have hpow : 2 ^ (8 * (n + 1)) = 2 ^ 8 * 2 ^ (8 * n) := by
        rw [← pow_add]
        congr 1
        omega
      have hbyte : (UInt8.ofNat (v % 2 ^ 8)).toNat = v % 2 ^ 8 := by
        rw [UInt8.toNat_ofNat']
        omega
      rw [leBytes, leValue, ih, hbyte, hpow, Nat.mod_mul]

/-! ## Zeros -/

theorem leValue_eq_zero_iff : leValue bs = 0 ↔ ∀ b ∈ bs, b = 0 := by
  induction bs with
  | nil => exact iff_of_true rfl fun b hb => absurd hb List.not_mem_nil
  | cons b bs ih =>
      have hbyte : b.toNat = 0 ↔ b = 0 := UInt8.toNat_inj (b := 0)
      rw [leValue, List.forall_mem_cons, ← ih, ← hbyte]
      omega

theorem leBytes_mod (n v : ℕ) : leBytes n (v % 2 ^ (8 * n)) = leBytes n v := by
  induction n generalizing v with
  | zero => rfl
  | succ n ih =>
      have hpow : 2 ^ (8 * (n + 1)) = 2 ^ 8 * 2 ^ (8 * n) := by
        rw [← pow_add]
        congr 1
        omega
      rw [leBytes, leBytes, hpow, Nat.mod_mul_right_mod, Nat.mod_mul_right_div_self, ih]

theorem leBytes_zero (n : ℕ) : leBytes n 0 = List.replicate n 0 := by
  induction n with
  | zero => rfl
  | succ n ih =>
      rw [leBytes, Nat.zero_div, ih]
      rfl

/-- A byte after zeros were written. -/
theorem writeBytes_zeros (m : ℕ → UInt8) (a n x : ℕ) :
    writeBytes m a (List.replicate n 0) x = if a ≤ x ∧ x < a + n then 0 else m x := by
  rw [writeBytes, List.length_replicate]
  split
  · rw [List.getD_eq_getElem _ _ (by rw [List.length_replicate]; omega), List.getElem_replicate]
  · rfl

end Neos.ByteRange
