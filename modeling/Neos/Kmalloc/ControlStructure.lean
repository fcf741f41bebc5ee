import Neos.Kmalloc.Model
import Neos.Library.BuddyTree

/-!
# The packed control structure

The masks of the tree are packed without byte alignment at the end of the
arena.  This module describes `getTreeElement` and `setTreeElement` bit by bit,
states what a well laid out arena is, and concludes that on such an arena the
packed tables behave like a function from tree nodes to masks.
-/

namespace Neos.Kmalloc

open BitMemory BuddyTree

/-! ## Single elements -/

/-- The position in memory, in bits, of the first bit of an element. -/
def elementBit (s : Allocator) (level node : ℕ) : ℕ :=
  8 * (s.treeLevels level).pointer + node * (level + 1)

theorem shiftCount {level : ℕ} (h : level ≤ 24) :
    (2 ^ 32 + 31 - level) % 32 = 31 - level := by
  omega

theorem testBit_getTreeElement (s : Allocator) {level node : ℕ} (hlevel : level ≤ 24)
    (hnode : node * (level + 1) < 2 ^ 32) (i : ℕ) :
    (getTreeElement s level node).testBit i =
      (decide (i ≤ level) && bit s.mem (elementBit s level node + (level - i))) := by
  unfold getTreeElement elementBit
  simp only [Nat.mod_eq_of_lt hnode, shiftCount hlevel, Nat.testBit_shiftRight,
    Nat.testBit_mod_two_pow, Nat.testBit_shiftLeft]
  set bits := node * (level + 1) with hbits
  set table := (s.treeLevels level).pointer
  by_cases hi : i ≤ level
  · have hlt : 31 - level + i < 32 := by omega
    have hge : 31 - level + i ≥ bits % 8 := by omega
    have hidx : 31 - level + i - bits % 8 = 31 - (bits % 8 + (level - i)) := by omega
    rw [hidx, testBit_byteSwap_loadDword _ _ (by omega)]
    have hpos : 8 * (table + bits / 8) + (bits % 8 + (level - i)) =
        8 * table + bits + (level - i) := by omega
    rw [hpos]
    simp [hi, hlt, hge]
  · have hlt : ¬ 31 - level + i < 32 := by omega
    simp [hi, hlt]

theorem getTreeElement_lt (s : Allocator) {level node : ℕ} (hlevel : level ≤ 24)
    (hnode : node * (level + 1) < 2 ^ 32) :
    getTreeElement s level node < 2 ^ (level + 1) := by
  refine Nat.lt_pow_two_of_testBit _ fun i hi => ?_
  rw [testBit_getTreeElement s hlevel hnode]
  have : ¬ i ≤ level := by omega
  simp [this]

theorem testBit_clearBits {j : ℕ} (hj : j < 32) :
    ∀ (count edi edx : ℕ), edx + count ≤ 32 →
      (clearBits edi edx count).testBit j =
        (edi.testBit j && !decide (edx ≤ 31 - j ∧ 31 - j < edx + count))
  | 0, edi, edx, _ => by
      have h : ¬ (edx ≤ 31 - j ∧ 31 - j < edx + 0) := by omega
      rw [clearBits, decide_eq_false h]
      simp
  | count + 1, edi, edx, h => by
      have hshift : (2 ^ 32 + 31 - edx) % 32 = 31 - edx := by omega
      rw [clearBits, hshift, testBit_clearBits hj count _ _ (by omega), testBit_clearBit _ hj]
      by_cases he : edx = 31 - j
      · have h₁ : j = 31 - edx := by omega
        have h₂ : edx ≤ 31 - j ∧ 31 - j < edx + (count + 1) := by omega
        simp [← h₁, h₂]
      · have h₁ : j ≠ 31 - edx := by omega
        have h₂ : (edx + 1 ≤ 31 - j ∧ 31 - j < edx + 1 + count) ↔
            (edx ≤ 31 - j ∧ 31 - j < edx + (count + 1)) := by omega
        simp only [h₂, ne_eq, h₁, not_false_eq_true, decide_true, Bool.and_true]

/-- The word that `settreeelement` stores, bit by bit: the element replaces the bits
`start .. start + level`, counted from the most significant one. -/
theorem testBit_replaced (m : Memory) {level start table v : ℕ} (hlevel : level ≤ 24)
    (hstart : start < 8) {t : ℕ} (ht : t < 32) :
    (clearBits (byteSwap (loadDword m table)) start (level + 1) |||
        (v <<< (31 - level) % 2 ^ 32) >>> start).testBit (31 - t) =
      if start ≤ t ∧ t < start + (level + 1) then v.testBit (level - (t - start))
      else bit m (8 * table + t) := by
  rw [Nat.testBit_or, testBit_clearBits (by omega) _ _ _ (by omega),
    Nat.testBit_shiftRight, Nat.testBit_mod_two_pow, Nat.testBit_shiftLeft,
    testBit_byteSwap_loadDword _ _ ht]
  have h₁ : 31 - (31 - t) = t := by omega
  rw [h₁]
  split
  · next hin =>
      have h₂ : start + (31 - t) < 32 := by omega
      have h₃ : start + (31 - t) ≥ 31 - level := by omega
      have h₄ : start + (31 - t) - (31 - level) = level - (t - start) := by omega
      simp [hin, h₂, h₃, h₄]
  · next hout =>
      have h₂ : (decide (start + (31 - t) < 32) &&
          (decide (start + (31 - t) ≥ 31 - level))) = false := by
        rw [← Bool.decide_and, decide_eq_false_iff_not]
        omega
      rw [← Bool.and_assoc, h₂]
      simp [hout]

/-- Setting an element writes its own bits and no others. -/
theorem bit_setTreeElement (s : Allocator) {level node v b : ℕ} (hlevel : level ≤ 24)
    (hnode : node * (level + 1) < 2 ^ 32)
    (hend : elementBit s level node + (level + 1) ≤ 2 ^ 35) (hb : b < 2 ^ 35) :
    bit (setTreeElement s level node v).mem b =
      if elementBit s level node ≤ b ∧ b < elementBit s level node + (level + 1) then
        v.testBit (level - (b - elementBit s level node))
      else bit s.mem b := by
  unfold setTreeElement
  unfold elementBit at *
  simp only [Nat.mod_eq_of_lt hnode, shiftCount hlevel]
  set bits := node * (level + 1)
  set table := (s.treeLevels level).pointer
  have hmod : bits % 8 < 8 := Nat.mod_lt _ (by decide)
  rw [bit_storeDword_byteSwap _ (by omega) hb]
  split
  · next hin =>
      rw [testBit_replaced _ hlevel hmod (by omega)]
      have h₁ : 8 * (table + bits / 8) + (b - 8 * (table + bits / 8)) = b := by omega
      rw [h₁]
      have h₂ : (bits % 8 ≤ b - 8 * (table + bits / 8) ∧
          b - 8 * (table + bits / 8) < bits % 8 + (level + 1)) ↔
          (8 * table + bits ≤ b ∧ b < 8 * table + bits + (level + 1)) := by omega
      have h₃ : b - 8 * (table + bits / 8) - bits % 8 = b - (8 * table + bits) := by omega
      simp only [h₂, h₃]
  · next hout =>
      have h₁ : ¬ (8 * table + bits ≤ b ∧ b < 8 * table + bits + (level + 1)) := by omega
      rw [if_neg h₁]
      split
      · next hwrap =>
          -- the word wraps around the address space, its element does not
          rw [testBit_replaced _ hlevel hmod (by omega), if_neg (by omega)]
          have h₂ : 8 * (table + bits / 8) + (b + 2 ^ 35 - 8 * (table + bits / 8)) =
              b + 2 ^ 35 := by omega
          rw [h₂, bit_add_wrap]
      · rfl

/-- Setting an element leaves the bits in front of it alone, apart from the first word
of the memory, where the element may wrap to. -/
theorem bit_setTreeElement_of_lt (s : Allocator) {level node v b : ℕ} (hlevel : level ≤ 24)
    (hnode : node * (level + 1) < 2 ^ 32) (hstart : elementBit s level node < 2 ^ 35)
    (hlow : 32 ≤ b) (hb : b < elementBit s level node) :
    bit (setTreeElement s level node v).mem b = bit s.mem b := by
  unfold setTreeElement
  unfold elementBit at *
  simp only [Nat.mod_eq_of_lt hnode, shiftCount hlevel]
  set bits := node * (level + 1)
  set table := (s.treeLevels level).pointer
  have hmod : bits % 8 < 8 := Nat.mod_lt _ (by decide)
  rw [bit_storeDword_byteSwap _ (by omega) (by omega)]
  split
  · next hin =>
      rw [testBit_replaced _ hlevel hmod (by omega), if_neg (by omega)]
      congr 1
      omega
  · rw [if_neg (by omega)]

/-! ## The arena -/

/-- The same arena: everything but the memory is unchanged. -/
def Same (s s' : Allocator) : Prop := ∃ m, s' = { s with mem := m }

theorem Same.refl (s : Allocator) : Same s s := ⟨s.mem, rfl⟩

theorem Same.trans {s s' s'' : Allocator} (h : Same s s') (h' : Same s' s'') :
    Same s s'' := by
  obtain ⟨m, rfl⟩ := h
  obtain ⟨m', rfl⟩ := h'
  exact ⟨m', rfl⟩

theorem setTreeElement_same (s : Allocator) (level node v : ℕ) :
    Same s (setTreeElement s level node v) := ⟨_, rfl⟩

/-- The root of the tree of an arena. -/
def Allocator.root (s : Allocator) : Node := ⟨s.maxTreeLevel, 0⟩

theorem le_root_iff {s : Allocator} {z : Node} :
    z ≤ s.root ↔ z.level ≤ s.maxTreeLevel ∧ z.index < 2 ^ (s.maxTreeLevel - z.level) := by
  rw [Node.le_def, Allocator.root]
  simp only
  rw [Nat.div_eq_zero_iff]
  have := Nat.two_pow_pos (s.maxTreeLevel - z.level)
  constructor
  · rintro ⟨h, h' | h'⟩
    · omega
    · exact ⟨h, h'⟩
  · rintro ⟨h, h'⟩
    exact ⟨h, Or.inr h'⟩

/-- The tables of the levels lie one behind the other in the last part of the
arena, and the descriptor behind the root's is still zero. -/
structure Layout (s : Allocator) : Prop where
  three_le : 3 ≤ s.maxTreeLevel
  le_twentyTwo : s.maxTreeLevel ≤ 22
  size_eq : ∀ l ≤ s.maxTreeLevel, (s.treeLevels l).size = 2 ^ (s.maxTreeLevel - l)
  above : ∀ l ≤ s.maxTreeLevel, s.offset + s.end_ ≤ (s.treeLevels l).pointer
  inside : ∀ l ≤ s.maxTreeLevel,
    8 * (s.treeLevels l).pointer + 2 ^ (s.maxTreeLevel - l) * (l + 1) ≤
      8 * (s.offset + s.size)
  ordered : ∀ l l', l < l' → l' ≤ s.maxTreeLevel →
    8 * (s.treeLevels l).pointer + 2 ^ (s.maxTreeLevel - l) * (l + 1) ≤
      8 * (s.treeLevels l').pointer
  fits : s.offset + s.size ≤ 2 ^ 32
  beyond : (s.treeLevels (s.maxTreeLevel + 1)).pointer = 0
  end_eq : s.end_ + 2 ^ (s.maxTreeLevel - 1) = s.size
  blocks_le : s.size / blockSize ≤ 2 ^ s.maxTreeLevel
  lt_blocks : 2 ^ (s.maxTreeLevel - 1) < s.size / blockSize

theorem Layout.same {s s' : Allocator} (h : Layout s) (hs : Same s s') : Layout s' := by
  obtain ⟨m, rfl⟩ := hs
  exact ⟨h.three_le, h.le_twentyTwo, h.size_eq, h.above, h.inside, h.ordered, h.fits,
    h.beyond, h.end_eq, h.blocks_le, h.lt_blocks⟩

theorem Same.root_eq {s s' : Allocator} (hs : Same s s') : s'.root = s.root := by
  obtain ⟨m, rfl⟩ := hs
  rfl

/-- The masks of the tree. -/
def Allocator.tree (s : Allocator) (z : Node) : ℕ := getTreeElement s z.level z.index

section Layout

variable {s : Allocator} {z x : Node}

theorem element_end (hz : z ≤ s.root) :
    elementBit s z.level z.index + (z.level + 1) ≤
      8 * (s.treeLevels z.level).pointer +
        2 ^ (s.maxTreeLevel - z.level) * (z.level + 1) := by
  have hidx := (le_root_iff.mp hz).2
  unfold elementBit
  have hmul : (z.index + 1) * (z.level + 1) ≤
      2 ^ (s.maxTreeLevel - z.level) * (z.level + 1) := Nat.mul_le_mul_right _ hidx
  rw [Nat.add_mul, Nat.one_mul] at hmul
  omega

theorem Layout.level_le (h : Layout s) (hz : z ≤ s.root) : z.level ≤ 22 :=
  (le_root_iff.mp hz).1.trans h.le_twentyTwo

theorem Layout.node_lt (h : Layout s) (hz : z ≤ s.root) :
    z.index * (z.level + 1) < 2 ^ 32 := by
  have hidx := (le_root_iff.mp hz).2
  have hlevel := h.level_le hz
  have hpow : 2 ^ (s.maxTreeLevel - z.level) ≤ 2 ^ 22 :=
    Nat.pow_le_pow_right (by decide) (by have := h.le_twentyTwo; omega)
  calc z.index * (z.level + 1) ≤ 2 ^ 22 * 23 := Nat.mul_le_mul (by omega) (by omega)
    _ < 2 ^ 32 := by decide

theorem Layout.element_end_le (h : Layout s) (hz : z ≤ s.root) :
    elementBit s z.level z.index + (z.level + 1) ≤ 8 * (s.offset + s.size) :=
  (element_end hz).trans (h.inside _ (le_root_iff.mp hz).1)

theorem Layout.element_start_ge (h : Layout s) (hz : z ≤ s.root) :
    8 * (s.offset + s.end_) ≤ elementBit s z.level z.index := by
  have := h.above _ (le_root_iff.mp hz).1
  unfold elementBit
  omega

theorem Layout.end_ge (h : Layout s) : 4096 ≤ s.end_ := by
  have h₁ := h.end_eq
  have h₂ := h.lt_blocks
  have h₃ : 2 ^ 2 ≤ 2 ^ (s.maxTreeLevel - 1) :=
    Nat.pow_le_pow_right (by decide) (by have := h.three_le; omega)
  unfold blockSize at h₂
  omega

/-- Distinct elements have disjoint bits. -/
theorem Layout.elements_disjoint (h : Layout s) (hz : z ≤ s.root) (hx : x ≤ s.root)
    (hne : z ≠ x) :
    elementBit s z.level z.index + (z.level + 1) ≤ elementBit s x.level x.index ∨
      elementBit s x.level x.index + (x.level + 1) ≤ elementBit s z.level z.index := by
  have hzl := (le_root_iff.mp hz).1
  have hxl := (le_root_iff.mp hx).1
  rcases lt_trichotomy z.level x.level with hlt | heq | hgt
  · left
    have h₁ := element_end hz
    have h₂ := h.ordered _ _ hlt hxl
    unfold elementBit at *
    omega
  · have hidx : z.index ≠ x.index := fun he => hne (Node.ext heq he)
    unfold elementBit
    rw [heq]
    rcases Nat.lt_or_gt_of_ne hidx with hi | hi
    · left
      have := Nat.mul_le_mul_right (x.level + 1) (Nat.succ_le_of_lt hi)
      rw [Nat.succ_mul] at this
      omega
    · right
      have := Nat.mul_le_mul_right (x.level + 1) (Nat.succ_le_of_lt hi)
      rw [Nat.succ_mul] at this
      omega
  · right
    have h₁ := element_end hx
    have h₂ := h.ordered _ _ hgt hzl
    unfold elementBit at *
    omega

theorem Layout.tree_bounded (h : Layout s) : Bounded s.tree s.root := by
  intro z hz
  exact getTreeElement_lt s ((h.level_le hz).trans (by decide)) (h.node_lt hz)

/-- Elements are read from their own bits. -/
theorem Layout.tree_congr (h : Layout s) {s' : Allocator} (hs : Same s s')
    (hz : z ≤ s.root)
    (hbits : ∀ b, elementBit s z.level z.index ≤ b →
      b < elementBit s z.level z.index + (z.level + 1) → bit s'.mem b = bit s.mem b) :
    s'.tree z = s.tree z := by
  obtain ⟨m, rfl⟩ := hs
  have hlevel : z.level ≤ 24 := (h.level_le hz).trans (by decide)
  refine Nat.eq_of_testBit_eq fun i => ?_
  unfold Allocator.tree
  rw [testBit_getTreeElement _ hlevel (h.node_lt hz),
    testBit_getTreeElement _ hlevel (h.node_lt hz)]
  by_cases hi : i ≤ z.level
  · have := hbits (elementBit s z.level z.index + (z.level - i)) (by omega) (by omega)
    simp only [elementBit] at this ⊢
    rw [this]
  · simp [hi]

/-- Memory outside the control structure does not matter for the tree. -/
theorem Layout.tree_eq_of_mem (h : Layout s) {s' : Allocator} (hs : Same s s')
    (hmem : ∀ a, s.offset + s.end_ ≤ a → a < s.offset + s.size → s'.mem a = s.mem a)
    (hz : z ≤ s.root) : s'.tree z = s.tree z := by
  refine h.tree_congr hs hz fun b hlow hhigh => ?_
  have h₁ := h.element_start_ge hz
  have h₂ := h.element_end_le hz
  have h₃ := h.fits
  unfold bit load
  rw [wrap_of_lt (by omega), hmem (b / 8) (by omega) (by omega)]

/-- Setting a node of the tree changes its mask and no other. -/
theorem Layout.tree_set (h : Layout s) (hx : x ≤ s.root) (v : ℕ) (hz : z ≤ s.root) :
    (setTreeElement s x.level x.index v).tree z =
      if z = x then v % 2 ^ (x.level + 1) else s.tree z := by
  have hfits := h.fits
  have hxl : x.level ≤ 24 := (h.level_le hx).trans (by decide)
  have hxe := h.element_end_le hx
  have hze := h.element_end_le hz
  split
  · next heq =>
      subst heq
      refine Nat.eq_of_testBit_eq fun i => ?_
      unfold Allocator.tree
      rw [testBit_getTreeElement _ hxl (h.node_lt hx), Nat.testBit_mod_two_pow]
      by_cases hi : i ≤ z.level
      · have hset := bit_setTreeElement s (v := v)
          (b := elementBit s z.level z.index + (z.level - i)) hxl (h.node_lt hx)
          (by omega) (by omega)
        rw [if_pos ⟨by omega, by omega⟩] at hset
        have hidx : z.level - (elementBit s z.level z.index + (z.level - i) -
            elementBit s z.level z.index) = i := by omega
        rw [hidx] at hset
        have hlt : i < z.level + 1 := by omega
        simp only [hi, hlt, decide_true, Bool.true_and]
        exact hset
      · have hlt : ¬ i < z.level + 1 := by omega
        simp [hi, hlt]
  · next hne =>
      refine h.tree_congr (setTreeElement_same s _ _ _) hz fun b hlow hhigh => ?_
      rw [bit_setTreeElement s hxl (h.node_lt hx) (by omega) (by omega), if_neg]
      have := h.elements_disjoint hz hx hne
      omega

/-- The element behind the last one of a level lies behind the table of the level, so
setting it leaves the masks of that level and the ones below alone. -/
theorem Layout.tree_set_behind (h : Layout s) (hfits : s.offset + s.size < 2 ^ 32) {l : ℕ}
    (hl : l ≤ s.maxTreeLevel) (v : ℕ) (hz : z ≤ s.root) (hzl : z.level ≤ l) :
    (setTreeElement s l (2 ^ (s.maxTreeLevel - l)) v).tree z = s.tree z := by
  have hmax := h.le_twentyTwo
  have hinside := h.inside l hl
  have hpow : 2 ^ (s.maxTreeLevel - l) ≤ 2 ^ 22 := Nat.pow_le_pow_right (by decide) (by omega)
  have hnode : 2 ^ (s.maxTreeLevel - l) * (l + 1) < 2 ^ 32 :=
    calc 2 ^ (s.maxTreeLevel - l) * (l + 1) ≤ 2 ^ 22 * 23 := Nat.mul_le_mul hpow (by omega)
      _ < 2 ^ 32 := by decide
  have hend : elementBit s z.level z.index + (z.level + 1) ≤
      elementBit s l (2 ^ (s.maxTreeLevel - l)) := by
    have helement := element_end hz
    rcases Nat.lt_or_eq_of_le hzl with hlt | heq
    · have hordered := h.ordered _ _ hlt hl
      unfold elementBit at *
      omega
    · rw [heq] at helement
      unfold elementBit at *
      rw [heq]
      exact helement
  have hlow := h.element_start_ge hz
  have hge := h.end_ge
  refine h.tree_congr (setTreeElement_same s _ _ _) hz fun b hb₁ hb₂ => ?_
  refine bit_setTreeElement_of_lt s (by omega) hnode ?_ (by omega) (by omega)
  unfold elementBit
  omega

/-- The element above the root has no table of its own: its zero descriptor
sends the write to the bottom of the address space, away from the tree. -/
theorem Layout.tree_set_beyond (h : Layout s) (v : ℕ) (hz : z ≤ s.root) :
    (setTreeElement s (s.maxTreeLevel + 1) 0 v).tree z = s.tree z := by
  have hfits := h.fits
  have hmax := h.le_twentyTwo
  have hze := h.element_end_le hz
  refine h.tree_congr (setTreeElement_same s _ _ _) hz fun b hlow hhigh => ?_
  have hzero : elementBit s (s.maxTreeLevel + 1) 0 = 0 := by
    rw [elementBit, h.beyond]
    simp
  rw [bit_setTreeElement s (by omega) (by omega) (by omega) (by omega), hzero, if_neg]
  have h₁ := h.element_start_ge hz
  have h₂ := h.end_ge
  omega

end Layout

end Neos.Kmalloc
