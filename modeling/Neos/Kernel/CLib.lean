import Neos.Library.BitMemory

/-!
# `math.c` and `memory.c`

The integer helpers and the byte copying routines used throughout the kernel.
An `int` or `long` is an integer in `[-2 ^ 31, 2 ^ 31)`; a `uint32_t` or a
pointer is a natural number below `2 ^ 32`.
-/

namespace Neos

open BitMemory

/-- The `int` with the bit pattern of a 32-bit word. -/
def toInt (n : ℕ) : ℤ := if n % 2 ^ 32 < 2 ^ 31 then n % 2 ^ 32 else n % 2 ^ 32 - 2 ^ 32

/-- The 32-bit word with the bit pattern of an `int`. -/
def toWord (z : ℤ) : ℕ := (z % 2 ^ 32).toNat

/-- `math.c`, `max`. -/
def cMax (left right : ℤ) : ℤ := if left > right then left else right

/-- `math.c`, `min`. -/
def cMin (left right : ℤ) : ℤ := if left < right then left else right

/-- `math.c`, `clamp`. -/
def clamp (value low high : ℤ) : ℤ :=
  if value < low then low else if value > high then high else value

/-- `math.c`, `sgn`. -/
def sgn (value : ℤ) : ℤ := if value < 0 then -1 else if value > 0 then 1 else 0

/-- The `int` a computation leaves behind: its result modulo `2 ^ 32`. -/
def wrapInt (z : ℤ) : ℤ := toInt (toWord z)

/-- `math.c`, `abs`. -/
def cAbs (value : ℤ) : ℤ := if value < 0 then wrapInt (-value) else value

/-- The forward loop of `memcpy`: `bytes` bytes remain to be copied, the next
one at index `i`. -/
def copyForward (dst src : ℕ) : ℕ → ℕ → Memory → Memory
  | 0, _, m => m
  | bytes + 1, i, m =>
      copyForward dst src bytes (i + 1) (store m (dst + i) (load m (src + i)))

/-- The backward loop of `memmove`, from index `bytes - 1` down to `0`. -/
def copyBackward (dst src : ℕ) : ℕ → Memory → Memory
  | 0, m => m
  | bytes + 1, m =>
      copyBackward dst src bytes (store m (dst + bytes) (load m (src + bytes)))

/-- `memory.c`, `memcpy`; the count is a `long`, a negative one copies
nothing. -/
def memcpy (m : Memory) (dst src : ℕ) (bytes : ℤ) : Memory :=
  if src = dst ∨ bytes = 0 then m else copyForward dst src bytes.toNat 0 m

/-- `memory.c`, `memmove`. -/
def memmove (m : Memory) (dst src : ℕ) (bytes : ℤ) : Memory :=
  if src = dst ∨ bytes = 0 then m
  else if src > dst then memcpy m dst src bytes
  else copyBackward dst src bytes.toNat m

/-- The loop of `memset`. -/
def fillForward (dst value : ℕ) : ℕ → ℕ → Memory → Memory
  | 0, _, m => m
  | bytes + 1, i, m => fillForward dst value bytes (i + 1) (store m (dst + i) value)

/-- `memory.c`, `memset`. -/
def memset (m : Memory) (dst value : ℕ) (bytes : ℤ) : Memory :=
  fillForward dst value bytes.toNat 0 m

/-! ## Signed and unsigned words -/

theorem toInt_of_lt {n : ℕ} (h : n < 2 ^ 31) : toInt n = n := by
  unfold toInt
  split <;> omega

theorem toInt_of_ge {n : ℕ} (h₁ : 2 ^ 31 ≤ n) (h₂ : n < 2 ^ 32) :
    toInt n = n - 2 ^ 32 := by
  unfold toInt
  split <;> omega

theorem toInt_bounds (n : ℕ) : -2 ^ 31 ≤ toInt n ∧ toInt n < 2 ^ 31 := by
  rw [toInt]
  split <;> omega

theorem toInt_add_word (n : ℕ) : toInt (n + 2 ^ 32) = toInt n := by
  have h : (n + 2 ^ 32) % 2 ^ 32 = n % 2 ^ 32 := by omega
  unfold toInt
  rw [h]
  split <;> omega

theorem toWord_toInt (n : ℕ) : toWord (toInt n) = n % 2 ^ 32 := by
  unfold toWord toInt
  split <;> omega

theorem wrapInt_eq (z : ℤ) :
    wrapInt z = if z % 2 ^ 32 < 2 ^ 31 then z % 2 ^ 32 else z % 2 ^ 32 - 2 ^ 32 := by
  unfold wrapInt toInt toWord
  split <;> split <;> omega

theorem wrapInt_emod (z : ℤ) : wrapInt z % 2 ^ 32 = z % 2 ^ 32 := by
  rw [wrapInt_eq]
  split <;> omega

/-- Only the value modulo `2 ^ 32` matters. -/
theorem wrapInt_congr {a b : ℤ} (h : a % 2 ^ 32 = b % 2 ^ 32) : wrapInt a = wrapInt b := by
  rw [wrapInt_eq, wrapInt_eq, h]

/-- A result that fits is kept. -/
theorem wrapInt_of_fits {z : ℤ} (h₁ : -2 ^ 31 ≤ z) (h₂ : z < 2 ^ 31) : wrapInt z = z := by
  rw [wrapInt_eq]
  split <;> omega

/-- A result beyond the largest `int` comes out negative. -/
theorem wrapInt_of_over {z : ℤ} (h₁ : 2 ^ 31 ≤ z) (h₂ : z < 2 ^ 31 + 2 ^ 32) :
    wrapInt z = z - 2 ^ 32 := by
  rw [wrapInt_eq]
  split <;> omega

theorem wrapInt_range (z : ℤ) : -2 ^ 31 ≤ wrapInt z ∧ wrapInt z < 2 ^ 31 :=
  toInt_bounds (toWord z)

theorem clamp_eq_self {value low high : ℤ} (h₁ : low ≤ value) (h₂ : value ≤ high) :
    clamp value low high = value := by
  rw [clamp, if_neg (Int.not_lt.mpr h₁), if_neg (Int.not_lt.mpr h₂)]

/-! ## What the loops leave alone -/

theorem store_of_ne {m : Memory} {a v x : ℕ} (h : x ≠ wrap a) : store m a v x = m x := by
  simp [store, h]

theorem copyForward_frame (dst src : ℕ) {x : ℕ} :
    ∀ (n i : ℕ) (m : Memory), (∀ j, i ≤ j → j < i + n → x ≠ wrap (dst + j)) →
      copyForward dst src n i m x = m x
  | 0, _, _, _ => rfl
  | n + 1, i, m, h => by
      rw [copyForward, copyForward_frame dst src n (i + 1)]
      · exact store_of_ne (h i le_rfl (by omega))
      · intro j h₁ h₂
        exact h j (by omega) (by omega)

theorem copyBackward_frame (dst src : ℕ) {x : ℕ} :
    ∀ (n : ℕ) (m : Memory), (∀ j, j < n → x ≠ wrap (dst + j)) →
      copyBackward dst src n m x = m x
  | 0, _, _ => rfl
  | n + 1, m, h => by
      rw [copyBackward, copyBackward_frame dst src n]
      · exact store_of_ne (h n (by omega))
      · intro j hj
        exact h j (by omega)

/-- `memmove` writes only inside its destination. -/
theorem memmove_frame (m : Memory) (dst src : ℕ) (bytes : ℤ) {x : ℕ}
    (h : ∀ j : ℕ, (j : ℤ) < bytes → x ≠ wrap (dst + j)) :
    memmove m dst src bytes x = m x := by
  unfold memmove memcpy
  split
  · rfl
  split
  · rw [copyForward_frame]
    intro j _ hj
    exact h j (by omega)
  · rw [copyBackward_frame]
    intro j hj
    exact h j (by omega)

/-! ## What the loops copy -/

theorem store_load (m : Memory) (a b x : ℕ) :
    store m a (load m b) x = if x = wrap a then m (wrap b) else m x := by
  simp [store, load]

/-- The forward loop copies every byte when the source lies above the
destination. -/
theorem copyForward_get {dst src : ℕ} (hlt : dst < src) :
    ∀ (n i : ℕ) (m : Memory), src + (i + n) ≤ 2 ^ 32 → ∀ j, i ≤ j → j < i + n →
      copyForward dst src n i m (dst + j) = m (src + j)
  | 0, _, _, _, _, _, _ => by omega
  | n + 1, i, m, hfits, j, h₁, h₂ => by
      have hdst : wrap (dst + i) = dst + i := wrap_of_lt (by omega)
      have hsrc : wrap (src + i) = src + i := wrap_of_lt (by omega)
      rw [copyForward]
      rcases eq_or_lt_of_le h₁ with rfl | hj
      · rw [copyForward_frame, store_load, hdst, if_pos rfl, hsrc]
        intro k hk hkn
        rw [wrap_of_lt (by omega)]
        omega
      · rw [copyForward_get hlt n (i + 1) _ (by omega) j hj (by omega), store_load, hdst,
          if_neg (by omega)]

/-- The backward loop copies every byte when the source lies below the
destination. -/
theorem copyBackward_get {dst src : ℕ} (hlt : src < dst) :
    ∀ (n : ℕ) (m : Memory), dst + n ≤ 2 ^ 32 → ∀ j, j < n →
      copyBackward dst src n m (dst + j) = m (src + j)
  | 0, _, _, _, _ => by omega
  | n + 1, m, hfits, j, hj => by
      have hdst : wrap (dst + n) = dst + n := wrap_of_lt (by omega)
      have hsrc : wrap (src + n) = src + n := wrap_of_lt (by omega)
      rw [copyBackward]
      rcases Nat.lt_or_eq_of_le (Nat.le_of_lt_succ hj) with hlast | rfl
      · rw [copyBackward_get hlt n _ (by omega) j hlast, store_load, hdst, if_neg (by omega)]
      · rw [copyBackward_frame, store_load, hdst, if_pos rfl, hsrc]
        intro k hk
        rw [wrap_of_lt (by omega)]
        omega

/-- `memmove` copies its source, also where the ranges overlap. -/
theorem memmove_get (m : Memory) {dst src n : ℕ} (hdst : dst + n ≤ 2 ^ 32)
    (hsrc : src + n ≤ 2 ^ 32) {j : ℕ} (hj : j < n) :
    memmove m dst src n (dst + j) = m (src + j) := by
  unfold memmove memcpy
  by_cases hnone : src = dst ∨ (n : ℤ) = 0
  · rcases hnone with rfl | hzero
    · rw [if_pos (Or.inl rfl)]
    · omega
  · rw [if_neg hnone, if_neg hnone, Int.toNat_natCast]
    by_cases hforward : src > dst
    · rw [if_pos hforward, copyForward_get hforward n 0 m (by omega) j (Nat.zero_le _) (by omega)]
    · rw [if_neg hforward, copyBackward_get (by omega) n m hdst j hj]

/-- The memory after `memmove`: its destination holds what its source held. -/
theorem memmove_eq (m : Memory) {dst src n : ℕ} (hdst : dst + n ≤ 2 ^ 32)
    (hsrc : src + n ≤ 2 ^ 32) :
    memmove m dst src n = fun a => if dst ≤ a ∧ a < dst + n then m (a - dst + src) else m a := by
  funext a
  by_cases hin : dst ≤ a ∧ a < dst + n
  · obtain ⟨j, rfl⟩ := Nat.exists_eq_add_of_le hin.1
    have hsource : dst + j - dst + src = src + j := by omega
    rw [if_pos hin, memmove_get m hdst hsrc (by omega), hsource]
  · rw [if_neg hin, memmove_frame]
    intro j hj
    rw [wrap_of_lt (by omega)]
    omega

/-- A count that is not positive moves nothing. -/
theorem memmove_of_nonpos (m : Memory) (dst src : ℕ) {bytes : ℤ} (h : bytes ≤ 0) :
    memmove m dst src bytes = m := by
  have hnone : bytes.toNat = 0 := Int.toNat_eq_zero.mpr h
  unfold memmove memcpy
  rw [hnone]
  split
  · rfl
  split <;> rfl

end Neos
