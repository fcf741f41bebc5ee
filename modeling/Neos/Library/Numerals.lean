import Mathlib.Data.Nat.Digits.Lemmas

/-!
# Numerals

The digits of a number in a base, the most significant one first, and the number
that a list of digits denotes.
-/

namespace Neos.Numerals

variable {b n d : ℕ} {ds : List ℕ}

/-- The number that digits denote, read from left to right. -/
def value (b : ℕ) (ds : List ℕ) : ℕ := ds.foldl (fun n d => n * b + d) 0

/-- The canonical numeral of a number: without leading zeros, and not empty. -/
def numeral (b n : ℕ) : List ℕ := if n = 0 then [0] else (b.digits n).reverse

theorem value_append_singleton (b : ℕ) (ds : List ℕ) (d : ℕ) :
    value b (ds ++ [d]) = value b ds * b + d := by
  rw [value, List.foldl_append]
  rfl

theorem value_eq_ofDigits (b : ℕ) (ds : List ℕ) : value b ds = Nat.ofDigits b ds.reverse := by
  induction ds using List.reverseRecOn with
  | nil => rfl
  | append_singleton ds d ih =>
      rw [value_append_singleton, List.reverse_append, List.reverse_singleton,
        List.singleton_append, Nat.ofDigits_cons, ih]
      ring

/-- Reading the numeral of a number gives it back. -/
theorem value_numeral (b n : ℕ) : value b (numeral b n) = n := by
  unfold numeral
  split
  · rename_i h
    rw [h]
    exact Nat.zero_mul b
  · rw [value_eq_ofDigits, List.reverse_reverse, Nat.ofDigits_digits]

/-- Leading zeros do not change the number. -/
theorem value_zeros_append (b k : ℕ) (ds : List ℕ) :
    value b (List.replicate k 0 ++ ds) = value b ds := by
  rw [value_eq_ofDigits, value_eq_ofDigits, List.reverse_append, List.reverse_replicate,
    Nat.ofDigits_append_replicate_zero]

theorem numeral_ne_nil (b n : ℕ) : numeral b n ≠ [] := by
  unfold numeral
  split
  · exact List.cons_ne_nil _ _
  · rename_i h
    rw [Ne, List.reverse_eq_nil_iff]
    exact Nat.digits_ne_nil_iff_ne_zero.mpr h

theorem lt_of_mem_numeral (hb : 1 < b) (hd : d ∈ numeral b n) : d < b := by
  unfold numeral at hd
  split at hd
  · rw [List.mem_singleton.mp hd]
    omega
  · exact Nat.digits_lt_base hb (List.mem_reverse.mp hd)

/-- A number below a power of the base has no more digits than its exponent
says. -/
theorem length_numeral_le (hb : 1 < b) {k : ℕ} (hk : 0 < k) (hn : n < b ^ k) :
    (numeral b n).length ≤ k := by
  unfold numeral
  split
  · exact hk
  · rw [List.length_reverse]
    exact (Nat.digits_length_le_iff hb n).mpr hn

end Neos.Numerals
