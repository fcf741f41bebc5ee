import Mathlib.Data.Nat.Bitwise
import Mathlib.Data.Nat.ModEq

/-!
# Byte memories seen bit by bit

A memory with 32-bit addresses is a function from addresses to bytes; an
address is always reduced modulo `2 ^ 32` before it is used.  This module
reads and writes 32-bit words in such a memory and describes both at the level
of single bits, counted from the most significant bit of each byte.  Packed
tables whose entries are not byte aligned are reasoned about through these bit
equations only.
-/

namespace Neos.BitMemory

/-- A memory with 32-bit addresses. -/
abbrev Memory := ℕ → UInt8

/-- The address a pointer denotes on a 32-bit machine. -/
def wrap (a : ℕ) : ℕ := a % 2 ^ 32

/-- The byte stored at a pointer. -/
def load (m : Memory) (a : ℕ) : ℕ := (m (wrap a)).toNat

/-- Store one byte. -/
def store (m : Memory) (a : ℕ) (v : ℕ) : Memory :=
  fun x => if x = wrap a then UInt8.ofNat v else m x

/-- Little-endian 32-bit load. -/
def loadDword (m : Memory) (a : ℕ) : ℕ :=
  load m a ||| load m (a + 1) <<< 8 ||| load m (a + 2) <<< 16 |||
    load m (a + 3) <<< 24

/-- Little-endian 32-bit store. -/
def storeDword (m : Memory) (a : ℕ) (v : ℕ) : Memory :=
  store (store (store (store m a v) (a + 1) (v >>> 8)) (a + 2) (v >>> 16))
    (a + 3) (v >>> 24)

/-- Reverse the order of the four bytes of a word. -/
def byteSwap (v : ℕ) : ℕ :=
  (v % 2 ^ 8) <<< 24 ||| ((v >>> 8) % 2 ^ 8) <<< 16 |||
    ((v >>> 16) % 2 ^ 8) <<< 8 ||| (v >>> 24) % 2 ^ 8

/-- Clear one bit of a 32-bit word. -/
def clearBit (v i : ℕ) : ℕ := v &&& ((2 ^ 32 - 1) ^^^ (2 ^ i))

/-- Bit `b` of a memory, the bits of a byte counted from the most significant
one. -/
def bit (m : Memory) (b : ℕ) : Bool :=
  (load m (b / 8)).testBit (7 - b % 8)

@[simp] theorem wrap_of_lt {a : ℕ} (h : a < 2 ^ 32) : wrap a = a :=
  Nat.mod_eq_of_lt h

/-- Bit positions wrap around with the addresses. -/
theorem bit_add_wrap (m : Memory) (b : ℕ) : bit m (b + 2 ^ 35) = bit m b := by
  have h₁ : (b + 2 ^ 35) / 8 = b / 8 + 2 ^ 32 := by omega
  have h₂ : (b + 2 ^ 35) % 8 = b % 8 := by omega
  rw [bit, bit, h₁, h₂, load, load, wrap, wrap, Nat.add_mod_right]

theorem load_lt (m : Memory) (a : ℕ) : load m a < 2 ^ 8 :=
  (m (wrap a)).toNat_lt

theorem load_testBit_eq_false (m : Memory) (a : ℕ) {i : ℕ} (h : 8 ≤ i) :
    (load m a).testBit i = false :=
  Nat.testBit_lt_two_pow <| (load_lt m a).trans_le <|
    Nat.pow_le_pow_right (by decide) h

theorem load_store (m : Memory) (a b v : ℕ) :
    load (store m a v) b = if wrap b = wrap a then v % 2 ^ 8 else load m b := by
  unfold load store
  split <;> simp

theorem testBit_loadDword (m : Memory) (a : ℕ) {i : ℕ} (hi : i < 32) :
    (loadDword m a).testBit i = (load m (a + i / 8)).testBit (i % 8) := by
  have h : i / 8 = 0 ∨ i / 8 = 1 ∨ i / 8 = 2 ∨ i / 8 = 3 := by omega
  have hm : i = 8 * (i / 8) + i % 8 := by omega
  unfold loadDword
  simp only [Nat.testBit_or, Nat.testBit_shiftLeft]
  rcases h with h | h | h | h <;> rw [h] at hm ⊢
  · have h₁ : ¬ i ≥ 8 := by omega
    have h₂ : ¬ i ≥ 16 := by omega
    have h₃ : ¬ i ≥ 24 := by omega
    have h₄ : i = i % 8 := by omega
    simp [h₁, h₂, h₃, ← h₄]
  · have h₁ : i ≥ 8 := by omega
    have h₂ : ¬ i ≥ 16 := by omega
    have h₃ : ¬ i ≥ 24 := by omega
    have h₄ : i - 8 = i % 8 := by omega
    simp [h₁, h₂, h₃, h₄, load_testBit_eq_false m a h₁]
  · have h₁ : 8 ≤ i := by omega
    have h₂ : i ≥ 16 := by omega
    have h₃ : ¬ i ≥ 24 := by omega
    have h₄ : 8 ≤ i - 8 := by omega
    have h₅ : i - 16 = i % 8 := by omega
    simp [h₂, h₃, h₅, load_testBit_eq_false m a h₁,
      load_testBit_eq_false m (a + 1) h₄]
  · have h₁ : 8 ≤ i := by omega
    have h₂ : 8 ≤ i - 16 := by omega
    have h₃ : i ≥ 24 := by omega
    have h₄ : 8 ≤ i - 8 := by omega
    have h₅ : i - 24 = i % 8 := by omega
    simp [h₃, h₅, load_testBit_eq_false m a h₁,
      load_testBit_eq_false m (a + 1) h₄, load_testBit_eq_false m (a + 2) h₂]

theorem testBit_byteSwap (v : ℕ) {i : ℕ} (hi : i < 32) :
    (byteSwap v).testBit i = v.testBit (8 * (3 - i / 8) + i % 8) := by
  have h : i / 8 = 0 ∨ i / 8 = 1 ∨ i / 8 = 2 ∨ i / 8 = 3 := by omega
  have hm : i = 8 * (i / 8) + i % 8 := by omega
  unfold byteSwap
  simp only [Nat.testBit_or, Nat.testBit_shiftLeft, Nat.testBit_mod_two_pow,
    Nat.testBit_shiftRight]
  rcases h with h | h | h | h <;> rw [h] at hm ⊢
  · have h₁ : ¬ i ≥ 24 := by omega
    have h₂ : ¬ i ≥ 16 := by omega
    have h₃ : ¬ i ≥ 8 := by omega
    have h₄ : i < 8 := by omega
    have h₅ : 24 + i = 8 * (3 - 0) + i % 8 := by omega
    simp [h₁, h₂, h₃, h₄, h₅]
  · have h₁ : ¬ i ≥ 24 := by omega
    have h₂ : ¬ i ≥ 16 := by omega
    have h₃ : i ≥ 8 := by omega
    have h₄ : i - 8 < 8 := by omega
    have h₅ : 16 + (i - 8) = 8 * (3 - 1) + i % 8 := by omega
    have h₆ : ¬ i < 8 := by omega
    simp [h₁, h₂, h₃, h₄, h₅, h₆]
  · have h₁ : ¬ i ≥ 24 := by omega
    have h₂ : i ≥ 16 := by omega
    have h₃ : ¬ i - 8 < 8 := by omega
    have h₄ : i - 16 < 8 := by omega
    have h₅ : 8 + (i - 16) = 8 * (3 - 2) + i % 8 := by omega
    have h₆ : ¬ i < 8 := by omega
    simp [h₁, h₂, h₃, h₄, h₅, h₆]
  · have h₁ : i ≥ 24 := by omega
    have h₂ : ¬ i - 16 < 8 := by omega
    have h₃ : ¬ i - 8 < 8 := by omega
    have h₄ : i % 8 < 8 := by omega
    have h₅ : i - 24 = 8 * (3 - 3) + i % 8 := by omega
    have h₆ : ¬ i < 8 := by omega
    simp [h₁, h₂, h₃, h₄, h₅, h₆]

/-- Bit `31 - t` of the byte-swapped word at `a` is bit `t` of the memory
counted from `a`. -/
theorem testBit_byteSwap_loadDword (m : Memory) (a : ℕ) {t : ℕ} (ht : t < 32) :
    (byteSwap (loadDword m a)).testBit (31 - t) = bit m (8 * a + t) := by
  rw [testBit_byteSwap _ (by omega), testBit_loadDword _ _ (by omega), bit]
  congr 2
  · omega
  · omega

theorem testBit_clearBit (v : ℕ) {i j : ℕ} (hj : j < 32) :
    (clearBit v i).testBit j = (v.testBit j && decide (j ≠ i)) := by
  unfold clearBit
  rw [Nat.testBit_and, Nat.testBit_xor, Nat.testBit_two_pow_sub_one,
    Nat.testBit_two_pow]
  by_cases h : i = j <;> simp [hj, h, eq_comm]

/-- The bytes of a stored word. -/
theorem load_storeDword_of_eq {m : Memory} {a v q k : ℕ} (hk : k < 4)
    (hq : wrap q = wrap (a + k)) : load (storeDword m a v) q = (v >>> (8 * k)) % 2 ^ 8 := by
  have hne : ∀ j, j < 4 → j ≠ k → wrap q ≠ wrap (a + j) := by
    intro j hj hjk heq
    unfold wrap at hq heq
    omega
  unfold storeDword
  rcases (by omega : k = 0 ∨ k = 1 ∨ k = 2 ∨ k = 3) with rfl | rfl | rfl | rfl
  · rw [load_store, if_neg (hne 3 (by decide) (by decide)), load_store,
      if_neg (hne 2 (by decide) (by decide)), load_store, if_neg (hne 1 (by decide) (by decide)),
      load_store, ← Nat.add_zero a, if_pos hq, Nat.mul_zero, Nat.shiftRight_zero]
  · rw [load_store, if_neg (hne 3 (by decide) (by decide)), load_store,
      if_neg (hne 2 (by decide) (by decide)), load_store, if_pos hq]
  · rw [load_store, if_neg (hne 3 (by decide) (by decide)), load_store, if_pos hq]
  · rw [load_store, if_pos hq]

/-- A stored word leaves the other bytes alone. -/
theorem load_storeDword_of_ne {m : Memory} {a v q : ℕ} (hq : ∀ k, k < 4 → wrap q ≠ wrap (a + k)) :
    load (storeDword m a v) q = load m q := by
  unfold storeDword
  rw [load_store, if_neg (hq 3 (by decide)), load_store, if_neg (hq 2 (by decide)), load_store,
    if_neg (hq 1 (by decide)), load_store, ← Nat.add_zero a, if_neg (hq 0 (by decide))]

/-- A byte of a byte-swapped word, its bits counted from the most significant
one. -/
theorem testBit_byteSwap_byte (v : ℕ) {k j : ℕ} (hk : k < 4) (hj : j < 8) :
    ((byteSwap v >>> (8 * k)) % 2 ^ 8).testBit (7 - j) = v.testBit (31 - (8 * k + j)) := by
  have h₁ : 7 - j < 8 := by omega
  have h₂ : 8 * (3 - (8 * k + (7 - j)) / 8) + (8 * k + (7 - j)) % 8 = 31 - (8 * k + j) := by
    omega
  rw [Nat.testBit_mod_two_pow, Nat.testBit_shiftRight, testBit_byteSwap v (by omega), h₂]
  simp [h₁]

/-- A byte-swapped store writes the bits of the word in memory order and
touches nothing else. -/
theorem bit_storeDword_byteSwap (m : Memory) {a b v : ℕ} (ha : a < 2 ^ 32)
    (hb : b < 2 ^ 35) :
    bit (storeDword m a (byteSwap v)) b =
      if 8 * a ≤ b ∧ b < 8 * a + 32 then v.testBit (31 - (b - 8 * a))
      else if b + 2 ^ 35 < 8 * a + 32 then
        v.testBit (31 - (b + 2 ^ 35 - 8 * a))
      else bit m b := by
  have hj : b % 8 < 8 := Nat.mod_lt _ (by decide)
  unfold bit
  split
  · next hin =>
      have hk : b / 8 - a < 4 := by omega
      rw [load_storeDword_of_eq hk (by rw [Nat.add_sub_cancel' (by omega)]),
        testBit_byteSwap_byte v hk hj]
      congr 1
      omega
  · next hout =>
      split
      · next hwrap =>
          -- the word runs over the end of the address space
          have hk : b / 8 + 2 ^ 32 - a < 4 := by omega
          have hq : wrap (b / 8) = wrap (a + (b / 8 + 2 ^ 32 - a)) := by
            rw [Nat.add_sub_cancel' (by omega)]
            exact (Nat.add_mod_right _ _).symm
          rw [load_storeDword_of_eq hk hq, testBit_byteSwap_byte v hk hj]
          congr 1
          omega
      · rw [load_storeDword_of_ne]
        intro k hk hq
        unfold wrap at hq
        omega

/-- A byte is determined by its bits. -/
theorem eq_of_bits {m m' : Memory} {a : ℕ} (ha : a < 2 ^ 32)
    (h : ∀ b, b / 8 = a → bit m' b = bit m b) : m' a = m a := by
  have hload : load m' a = load m a := by
    refine Nat.eq_of_testBit_eq fun i => ?_
    by_cases hi : i < 8
    · have hbit := h (8 * a + (7 - i)) (by omega)
      have h₁ : (8 * a + (7 - i)) / 8 = a := by omega
      have h₂ : 7 - (8 * a + (7 - i)) % 8 = i := by omega
      rwa [bit, bit, h₁, h₂] at hbit
    · rw [load_testBit_eq_false m' a (by omega), load_testBit_eq_false m a (by omega)]
  rw [load, load, wrap_of_lt ha] at hload
  exact UInt8.toNat_inj.mp hload

/-! ## Memories at another place -/

/-- `m'` holds at every address what `m` holds `distance` bytes behind it. -/
def Relocated (distance : ℕ) (m m' : Memory) : Prop :=
  ∀ a, load m' a = load m (a + distance)

section Relocated

variable {distance : ℕ} {m m' : Memory}

/-- Every memory can be seen from another origin. -/
theorem exists_relocated (distance : ℕ) (m : Memory) : ∃ m', Relocated distance m m' :=
  ⟨fun a => m (wrap (a + distance)), fun a => by simp only [load, wrap, Nat.mod_add_mod]⟩

theorem Relocated.loadDword (h : Relocated distance m m') (a : ℕ) :
    BitMemory.loadDword m' a = BitMemory.loadDword m (a + distance) := by
  unfold BitMemory.loadDword
  rw [h a, h (a + 1), h (a + 2), h (a + 3), Nat.add_right_comm a 1, Nat.add_right_comm a 2,
    Nat.add_right_comm a 3]

theorem Relocated.store (h : Relocated distance m m') (a v : ℕ) :
    Relocated distance (BitMemory.store m (a + distance) v) (BitMemory.store m' a v) := by
  intro b
  have hiff : wrap (b + distance) = wrap (a + distance) ↔ wrap b = wrap a :=
    ⟨Nat.ModEq.add_right_cancel' distance, Nat.ModEq.add_right distance⟩
  simp only [load_store, hiff, h b]

theorem Relocated.storeDword (h : Relocated distance m m') (a v : ℕ) :
    Relocated distance (BitMemory.storeDword m (a + distance) v) (BitMemory.storeDword m' a v) := by
  unfold BitMemory.storeDword
  rw [Nat.add_right_comm a _ 1, Nat.add_right_comm a _ 2, Nat.add_right_comm a _ 3]
  exact (((h.store a v).store (a + 1) _).store (a + 2) _).store (a + 3) _

end Relocated

end Neos.BitMemory
