import Neos.Kmalloc.Accesses

/-!
# Arenas with overlapping tables

`initializetree` takes an eighth of a byte for each leaf, so with two or four leaves the
table of level 1 lies on the table of the leaves, and a pair of leaves shares its bits with
the node above it.  The masks form no tree then, but every block that is allocated still
owns a set bit of its pair.
-/

namespace Neos.Kmalloc

open BitMemory BuddyTree

/-- The tables of an arena with two or four leaves. -/
structure Overlapping (s : Allocator) : Prop where
  one_le : 1 ≤ s.maxTreeLevel
  le_two : s.maxTreeLevel ≤ 2
  size_eq : ∀ l ≤ s.maxTreeLevel, (s.treeLevels l).size = 2 ^ (s.maxTreeLevel - l)
  pointer_one : (s.treeLevels 1).pointer = (s.treeLevels 0).pointer
  pointer_two : s.maxTreeLevel = 2 → (s.treeLevels 2).pointer = (s.treeLevels 0).pointer + 1
  apart : ∀ x < 2 ^ s.maxTreeLevel * blockSize, ∀ k < s.maxTreeLevel,
    wrap (s.offset + x) ≠ wrap ((s.treeLevels 0).pointer + k)

/-- The bits of the first table. -/
def Allocator.leafBit (s : Allocator) (i : ℕ) : Bool := bit s.mem (8 * (s.treeLevels 0).pointer + i)

section

variable {s s' : Allocator} {level node v i k t : ℕ}

theorem Overlapping.shaped (h : Overlapping s) : Shaped s :=
  ⟨h.one_le, h.le_two.trans (by decide), h.size_eq⟩

theorem Overlapping.same (h : Overlapping s) (hs : Same s s') : Overlapping s' := by
  obtain ⟨m, rfl⟩ := hs
  exact ⟨h.one_le, h.le_two, h.size_eq, h.pointer_one, h.pointer_two, h.apart⟩

/-! ## Bits of the first word of a table -/

theorem bit_setTreeElement_near (s : Allocator) (level node v : ℕ) (hlevel : level ≤ 24)
    (hnode : node * (level + 1) < 8) (ht : t < 32) :
    bit (setTreeElement s level node v).mem (8 * (s.treeLevels level).pointer + t) =
      if node * (level + 1) ≤ t ∧ t < node * (level + 1) + (level + 1) then
        v.testBit (level - (t - node * (level + 1)))
      else bit s.mem (8 * (s.treeLevels level).pointer + t) := by
  unfold setTreeElement
  set start := node * (level + 1)
  set table := (s.treeLevels level).pointer
  have hbits : start % 2 ^ 32 = start := Nat.mod_eq_of_lt (by omega)
  have hbyte : (8 * table + t) / 8 = table + t / 8 := by omega
  have hrest : (8 * table + t) % 8 = t % 8 := by omega
  have hindex : 8 * (t / 8) + t % 8 = t := Nat.div_add_mod t 8
  simp only [hbits, Nat.div_eq_of_lt hnode, Nat.mod_eq_of_lt hnode, Nat.add_zero,
    shiftCount hlevel]
  rw [bit, hbyte, hrest, load_storeDword_of_eq (by omega) rfl,
    testBit_byteSwap_byte _ (by omega) (by omega), hindex, testBit_replaced _ hlevel hnode ht]

/-- A byte in front of a table keeps its bits. -/
theorem bit_setTreeElement_front (s : Allocator) {b : ℕ} (hnode : node * (level + 1) < 8)
    (hb : b / 8 + 1 = (s.treeLevels level).pointer) :
    bit (setTreeElement s level node v).mem b = bit s.mem b := by
  unfold setTreeElement
  have hbits : node * (level + 1) % 2 ^ 32 = node * (level + 1) := Nat.mod_eq_of_lt (by omega)
  simp only [hbits, Nat.div_eq_of_lt hnode, Nat.add_zero]
  rw [bit, load_storeDword_of_ne, ← bit]
  intro j hj heq
  rw [← hb] at heq
  unfold wrap at heq
  omega

theorem leafBit_setLeaf (s : Allocator) (hi : i < 4) {j : ℕ} (hj : j < 4) :
    (setTreeElement s 0 i v).leafBit j = if j = i then v.testBit 0 else s.leafBit j := by
  have hbit := bit_setTreeElement_near s 0 i v (t := j) (by decide) (by omega) (by omega)
  have hiff : (i * (0 + 1) ≤ j ∧ j < i * (0 + 1) + (0 + 1)) ↔ j = i := by omega
  rw [Allocator.leafBit]
  refine hbit.trans ?_
  simp only [hiff, Nat.zero_sub]
  rfl

theorem Overlapping.leafBit_setPair (h : Overlapping s) (hk : k < 2) {j : ℕ} (hj : j < 4) :
    (setTreeElement s 1 k v).leafBit j =
      if j / 2 = k then v.testBit (1 - j % 2) else s.leafBit j := by
  have hbit := bit_setTreeElement_near s 1 k v (t := j) (by decide) (by omega) (by omega)
  have hiff : (k * (1 + 1) ≤ j ∧ j < k * (1 + 1) + (1 + 1)) ↔ j / 2 = k := by omega
  rw [h.pointer_one] at hbit
  rw [Allocator.leafBit]
  refine hbit.trans ?_
  simp only [hiff]
  split
  · next heq =>
      congr 1
      omega
  · rfl

/-- The root of a tree with four leaves has a byte of its own. -/
theorem Overlapping.leafBit_setRoot (h : Overlapping s) (htwo : s.maxTreeLevel = 2) {j : ℕ}
    (hj : j < 4) : (setTreeElement s 2 0 v).leafBit j = s.leafBit j := by
  have hbyte : (8 * (s.treeLevels 0).pointer + j) / 8 + 1 = (s.treeLevels 2).pointer := by
    rw [h.pointer_two htwo]
    omega
  exact bit_setTreeElement_front s (by decide) hbyte

theorem testBit_setRoot (s : Allocator) {l : ℕ} (hl : l ≤ 2) :
    (getTreeElement (setTreeElement s 2 0 v) 2 0).testBit l = v.testBit l := by
  have hbit := bit_setTreeElement_near s 2 0 v (t := 2 - l) (by decide) (by decide) (by omega)
  rw [if_pos (by omega)] at hbit
  rw [testBit_getTreeElement _ (by decide) (by decide), decide_eq_true hl, Bool.true_and]
  refine hbit.trans ?_
  congr 1
  omega

theorem getTreeElement_leaf (s : Allocator) (hi : i < 4) :
    getTreeElement s 0 i = (s.leafBit i).toNat := by
  have hlt : getTreeElement s 0 i < 2 ^ (0 + 1) := getTreeElement_lt s (by decide) (by omega)
  have hbit : (getTreeElement s 0 i).testBit 0 =
      (decide (0 ≤ 0) && bit s.mem (elementBit s 0 i + (0 - 0))) :=
    testBit_getTreeElement s (by decide) (by omega) 0
  have hposition : elementBit s 0 i + (0 - 0) = 8 * (s.treeLevels 0).pointer + i := by
    rw [elementBit]
    omega
  rw [hposition, decide_eq_true le_rfl, Bool.true_and, Nat.testBit_zero] at hbit
  rw [Allocator.leafBit, ← hbit]
  rcases (by omega : getTreeElement s 0 i = 0 ∨ getTreeElement s 0 i = 1) with heq | heq <;>
    rw [heq] <;> rfl

theorem Overlapping.testBit_pair (h : Overlapping s) (hk : k < 2) {l : ℕ} (hl : l < 2) :
    (getTreeElement s 1 k).testBit l = s.leafBit (2 * k + 1 - l) := by
  have hposition : elementBit s 1 k + (1 - l) = 8 * (s.treeLevels 0).pointer + (2 * k + 1 - l) := by
    rw [elementBit, h.pointer_one]
    omega
  rw [testBit_getTreeElement _ (by decide) (by omega), decide_eq_true (Nat.le_of_lt_succ hl),
    Bool.true_and, hposition]
  rfl

/-- A pair is zero if both of its bits are clear. -/
theorem Overlapping.pair_eq_zero_iff (h : Overlapping s) (hk : k < 2) :
    getTreeElement s 1 k = 0 ↔ s.leafBit (2 * k) = false ∧ s.leafBit (2 * k + 1) = false := by
  have hlt : getTreeElement s 1 k < 2 ^ (1 + 1) := getTreeElement_lt s (by decide) (by omega)
  have hfirst := h.testBit_pair hk (l := 1) (by decide)
  have hsecond := h.testBit_pair hk (l := 0) (by decide)
  simp only [Nat.add_sub_cancel, Nat.sub_zero] at hfirst hsecond
  rw [← hfirst, ← hsecond]
  generalize getTreeElement s 1 k = pair at hlt
  have hpair : ∀ p < 4, p = 0 ↔ p.testBit 1 = false ∧ p.testBit 0 = false := by decide
  exact hpair pair hlt

/-- `buddify` sorts the two bits of a pair. -/
theorem Overlapping.leafBit_buddify (h : Overlapping s) (hk : k < 2) {j : ℕ} (hj : j < 4) :
    (buddify s 1 k).leafBit j =
      if j = 2 * k then s.leafBit (2 * k) || s.leafBit (2 * k + 1)
      else if j = 2 * k + 1 then s.leafBit (2 * k) && s.leafBit (2 * k + 1)
      else s.leafBit j := by
  have hvalue : ∀ a b : Bool, (buddyValue 0 a.toNat b.toNat).testBit 1 = (a || b) ∧
      (buddyValue 0 a.toNat b.toNat).testBit 0 = (a && b) := by
    decide
  unfold buddify
  dsimp only
  rw [h.leafBit_setPair hk hj, Nat.sub_self, Nat.mul_comm k 2, getTreeElement_leaf s (by omega),
    getTreeElement_leaf s (by omega)]
  obtain ⟨hfirst, hsecond⟩ := hvalue (s.leafBit (2 * k)) (s.leafBit (2 * k + 1))
  by_cases heven : j = 2 * k
  · rw [if_pos heven, if_pos (by omega), ← hfirst]
    congr 1
    omega
  by_cases hodd : j = 2 * k + 1
  · rw [if_neg heven, if_pos hodd, if_pos (by omega), ← hsecond]
    congr 1
    omega
  · rw [if_neg heven, if_neg hodd, if_neg (by omega)]

/-! ## Rebuilding -/

/-- The bits of a pair are set in their order. -/
def Allocator.Sorted (s : Allocator) : Prop :=
  ∀ k < 2, s.leafBit (2 * k + 1) = true → s.leafBit (2 * k) = true

/-- A clear bit of the root is clear in one of the two pairs. -/
def Allocator.Rooted (s : Allocator) : Prop :=
  s.maxTreeLevel = 2 → ∀ l < 2, (getTreeElement s 2 0).testBit l = false →
    s.leafBit (1 - l) = false ∨ s.leafBit (3 - l) = false

/-- The number of set bits of a pair. -/
def Allocator.ones (s : Allocator) (k : ℕ) : ℕ :=
  (s.leafBit (2 * k)).toNat + (s.leafBit (2 * k + 1)).toNat

theorem testBit_buddyValue {e a : ℕ} (he : e < 4) (ha : a < 4) {l : ℕ} (hl : l < 2) :
    (buddyValue 1 e a).testBit l = (e.testBit l && a.testBit l) := by
  have hall : ∀ e < 4, ∀ a < 4, ∀ l < 2,
      (buddyValue 1 e a).testBit l = (e.testBit l && a.testBit l) := by
    decide
  exact hall e he a ha l hl

theorem Overlapping.leafBit_buddifyRoot (h : Overlapping s) (htwo : s.maxTreeLevel = 2) {j : ℕ}
    (hj : j < 4) : (buddify s 2 0).leafBit j = s.leafBit j :=
  h.leafBit_setRoot htwo hj

theorem Overlapping.rooted_buddifyRoot (h : Overlapping s) (htwo : s.maxTreeLevel = 2) :
    (buddify s 2 0).Rooted := by
  intro _ l hl hclear
  have hleft : getTreeElement s 1 0 < 2 ^ (1 + 1) := getTreeElement_lt s (by decide) (by decide)
  have hright : getTreeElement s 1 1 < 2 ^ (1 + 1) := getTreeElement_lt s (by decide) (by decide)
  have hbit : (getTreeElement (buddify s 2 0) 2 0).testBit l =
      (s.leafBit (1 - l) && s.leafBit (3 - l)) := by
    unfold buddify
    rw [testBit_setRoot s hl.le, testBit_buddyValue hleft hright hl,
      h.testBit_pair (k := 0) (by decide) hl, h.testBit_pair (k := 1) (by decide) hl]
  rw [hbit, Bool.and_eq_false_iff] at hclear
  rwa [h.leafBit_buddifyRoot htwo (by omega), h.leafBit_buddifyRoot htwo (by omega)]

/-- `full_buddify` from a leaf sorts its pair and rebuilds the root. -/
theorem Overlapping.fullBuddify_leaf (h : Overlapping s) (hi : i < 2 ^ s.maxTreeLevel) :
    (fullBuddify s 0 i).Rooted ∧
      ∀ j < 4, (fullBuddify s 0 i).leafBit j = (buddify s 1 (i / 2)).leafBit j := by
  have hmax : (buddify s 1 (i / 2)).maxTreeLevel = s.maxTreeLevel := rfl
  have hone := h.one_le
  have hle := h.le_two
  unfold fullBuddify
  rw [fullBuddifyLoop, Nat.zero_add, hmax]
  rcases (by omega : s.maxTreeLevel = 1 ∨ s.maxTreeLevel = 2) with htwo | htwo
  · rw [if_neg (by omega)]
    refine ⟨fun hroot => ?_, fun _ _ => rfl⟩
    rw [hmax] at hroot
    omega
  · rw [if_pos (by omega), htwo, fullBuddifyLoop]
    have hnode : i / 2 / 2 = 0 := by
      rw [htwo] at hi
      omega
    have hpair := h.same (buddify_same s 1 (i / 2))
    have hstop : ¬ 1 + 1 < (buddify (buddify s 1 (i / 2)) (1 + 1) 0).maxTreeLevel := by
      rw [show (buddify (buddify s 1 (i / 2)) (1 + 1) 0).maxTreeLevel = 2 from htwo]
      decide
    rw [hnode, if_neg hstop]
    exact ⟨hpair.rooted_buddifyRoot htwo, fun j hj => hpair.leafBit_buddifyRoot htwo hj⟩

/-- `full_buddify` from a pair rebuilds the root. -/
theorem fullBuddify_pair (htwo : s.maxTreeLevel = 2) (hk : k < 2) :
    fullBuddify s 1 k = buddify s 2 0 := by
  have hmax : (buddify s 2 0).maxTreeLevel = s.maxTreeLevel := rfl
  unfold fullBuddify
  rw [htwo, fullBuddifyLoop, Nat.div_eq_of_lt hk, hmax, if_neg (by omega)]

/-- Setting a leaf and rebuilding above it sorts the bits of its pair. -/
theorem Overlapping.settleLeaf (h : Overlapping s) (hi : i < 2 ^ s.maxTreeLevel) (v : ℕ) :
    let s' := fullBuddify (setTreeElement s 0 i v) 0 i
    let first := if i % 2 = 0 then v.testBit 0 else s.leafBit (2 * (i / 2))
    let second := if i % 2 = 0 then s.leafBit (2 * (i / 2) + 1) else v.testBit 0
    s'.Rooted ∧ s'.leafBit (2 * (i / 2)) = (first || second) ∧
      s'.leafBit (2 * (i / 2) + 1) = (first && second) ∧
      ∀ j < 4, j / 2 ≠ i / 2 → s'.leafBit j = s.leafBit j := by
  dsimp only
  have hset := h.same (setTreeElement_same s 0 i v)
  have hfour : 2 ^ s.maxTreeLevel ≤ 2 ^ 2 := Nat.pow_le_pow_right (by decide) h.le_two
  obtain ⟨hrooted, hleaves⟩ := hset.fullBuddify_leaf (i := i) hi
  have hfirst : (setTreeElement s 0 i v).leafBit (2 * (i / 2)) =
      if i % 2 = 0 then v.testBit 0 else s.leafBit (2 * (i / 2)) := by
    rw [leafBit_setLeaf s (by omega) (by omega)]
    exact if_congr (by omega) rfl rfl
  have hsecond : (setTreeElement s 0 i v).leafBit (2 * (i / 2) + 1) =
      if i % 2 = 0 then s.leafBit (2 * (i / 2) + 1) else v.testBit 0 := by
    rw [leafBit_setLeaf s (by omega) (by omega), ← ite_not]
    exact if_congr (by omega) rfl rfl
  refine ⟨hrooted, ?_, ?_, fun j hj hne => ?_⟩
  · rw [hleaves _ (by omega), hset.leafBit_buddify (by omega) (by omega), if_pos rfl, hfirst,
      hsecond]
  · rw [hleaves _ (by omega), hset.leafBit_buddify (by omega) (by omega), if_neg (by omega),
      if_pos rfl, hfirst, hsecond]
  · rw [hleaves j hj, hset.leafBit_buddify (by omega) hj, if_neg (by omega), if_neg (by omega),
      leafBit_setLeaf s (by omega) hj, if_neg]
    rintro rfl
    exact hne rfl

/-- `kfree` takes at most one set bit from the pair of its segment. -/
theorem Overlapping.kfree_settled (h : Overlapping s) (hsorted : s.Sorted) {pointer : ℕ}
    (hq : segmentOf s pointer < 2 ^ s.maxTreeLevel) :
    (kfree s pointer).Sorted ∧ (kfree s pointer).Rooted ∧
      ∀ k < 2, s.ones k ≤
        (kfree s pointer).ones k + if k = segmentOf s pointer / 2 then 1 else 0 := by
  obtain ⟨hrooted, hfirst, hsecond, hother⟩ := h.settleLeaf hq 0
  change (kfree s pointer).Rooted at hrooted
  change (kfree s pointer).leafBit _ = _ at hfirst hsecond
  change ∀ j < 4, _ → (kfree s pointer).leafBit j = _ at hother
  rw [Nat.zero_testBit] at hfirst hsecond
  refine ⟨fun k hk => ?_, hrooted, fun k hk => ?_⟩
  · by_cases hpair : k = segmentOf s pointer / 2
    · rw [hpair, hfirst, hsecond]
      simp only [Bool.and_eq_true, Bool.or_eq_true]
      exact fun hboth => Or.inl hboth.1
    · rw [hother _ (by omega) (by omega), hother _ (by omega) (by omega)]
      exact hsorted k hk
  · rw [Allocator.ones, Allocator.ones]
    by_cases hpair : k = segmentOf s pointer / 2
    · have hord := hsorted k hk
      rw [if_pos hpair, hpair, hfirst, hsecond]
      rw [hpair] at hord
      revert hord
      generalize s.leafBit (2 * (segmentOf s pointer / 2)) = a
      generalize s.leafBit (2 * (segmentOf s pointer / 2) + 1) = b
      split <;> revert a b <;> decide
    · rw [if_neg hpair, hother _ (by omega) (by omega), hother _ (by omega) (by omega)]
      rfl

/-- The first clear bit of a pair is the next one to be reserved. -/
theorem Overlapping.reserve_leaf (h : Overlapping s) (hsorted : s.Sorted)
    (hi : i < 2 ^ s.maxTreeLevel) (hclear : s.leafBit (2 * (i / 2) + 1) = false)
    (hnext : i % 2 = (s.leafBit (2 * (i / 2))).toNat) :
    (reserve s 0 i).Sorted ∧ (reserve s 0 i).Rooted ∧
      ∀ k < 2, (reserve s 0 i).ones k = s.ones k + if k = i / 2 then 1 else 0 := by
  obtain ⟨hrooted, hfirst, hsecond, hother⟩ := h.settleLeaf hi (2 ^ 32 - 1)
  change (reserve s 0 i).Rooted at hrooted
  change (reserve s 0 i).leafBit _ = _ at hfirst hsecond
  change ∀ j < 4, _ → (reserve s 0 i).leafBit j = _ at hother
  have hone : (2 ^ 32 - 1).testBit 0 = true := by decide
  rw [hone, hclear, hnext] at hfirst hsecond
  refine ⟨fun k hk => ?_, hrooted, fun k hk => ?_⟩
  · by_cases hpair : k = i / 2
    · rw [hpair, hfirst, hsecond]
      simp only [Bool.and_eq_true, Bool.or_eq_true]
      exact fun hboth => Or.inl hboth.1
    · rw [hother _ (by omega) (by omega), hother _ (by omega) (by omega)]
      exact hsorted k hk
  · rw [Allocator.ones, Allocator.ones]
    by_cases hpair : k = i / 2
    · rw [if_pos hpair, hpair, hfirst, hsecond, hclear]
      generalize s.leafBit (2 * (i / 2)) = a
      revert a
      decide
    · rw [if_neg hpair, hother _ (by omega) (by omega), hother _ (by omega) (by omega)]
      rfl

/-- Reserving a node above two leaves sets the bits of both. -/
theorem Overlapping.reserve_pair (h : Overlapping s) (hsorted : s.Sorted)
    (htwo : s.maxTreeLevel = 2) (hi : i < 2) (hclear : s.leafBit (2 * i) = false) :
    (reserve s 1 i).Sorted ∧ (reserve s 1 i).Rooted ∧
      ∀ k < 2, (reserve s 1 i).ones k = s.ones k + if k = i then 2 else 0 := by
  have hset := h.same (setTreeElement_same s 1 i (2 ^ 32 - 1))
  have hreserve : reserve s 1 i = buddify (setTreeElement s 1 i (2 ^ 32 - 1)) 2 0 :=
    fullBuddify_pair htwo hi
  have hbits : ∀ j < 4, (reserve s 1 i).leafBit j =
      if j / 2 = i then true else s.leafBit j := by
    intro j hj
    have hones : (2 ^ 32 - 1).testBit (1 - j % 2) = true := by
      rw [Nat.testBit_two_pow_sub_one]
      exact decide_eq_true (by omega)
    rw [hreserve, hset.leafBit_buddifyRoot htwo hj, h.leafBit_setPair hi hj, hones]
  have hsecond : s.leafBit (2 * i + 1) = false := by
    rw [← Bool.not_eq_true]
    intro hset
    rw [hsorted i hi hset] at hclear
    exact absurd hclear (by decide)
  refine ⟨fun k hk => ?_, hreserve ▸ hset.rooted_buddifyRoot htwo, fun k hk => ?_⟩
  · rw [hbits _ (by omega), hbits _ (by omega)]
    by_cases hpair : k = i
    · rw [if_pos (by omega), if_pos (by omega)]
      exact id
    · rw [if_neg (by omega), if_neg (by omega)]
      exact hsorted k hk
  · rw [Allocator.ones, Allocator.ones, hbits _ (by omega), hbits _ (by omega)]
    by_cases hpair : k = i
    · rw [if_pos (by omega), if_pos (by omega), if_pos hpair, hpair, hclear, hsecond]
      rfl
    · rw [if_neg (by omega), if_neg (by omega), if_neg hpair]
      rfl

/-! ## Requests -/

/-- The pair that a node lies in. -/
def pairOf (x : Node) : ℕ := x.index * 2 ^ x.level / 2

theorem seek_one (t : Node → ℕ) (l n : ℕ) :
    seek t l 1 n = n * 2 + ((t ⟨l, n * 2⟩).testBit l).toNat := by
  rw [seek, Nat.add_zero]
  cases (t ⟨l, n * 2⟩).testBit l <;> rfl

theorem seek_two (t : Node → ℕ) (l n : ℕ) :
    seek t l 2 n = seek t l 1 (n * 2 + ((t ⟨l + 1, n * 2⟩).testBit l).toNat) := by
  rw [seek]
  cases (t ⟨l + 1, n * 2⟩).testBit l <;> rfl

/-- With room at the root the first pair or the second one has room. -/
theorem Overlapping.leafBit_of_room (h : Overlapping s) (hrooted : s.Rooted) {l : ℕ} (hl : l < 2)
    (hbit : (s.tree s.root).testBit l = false) :
    s.leafBit (1 - l) = false ∨ s.maxTreeLevel = 2 ∧ s.leafBit (3 - l) = false := by
  have hone := h.one_le
  have hle := h.le_two
  rw [Allocator.tree, Allocator.root] at hbit
  rcases (by omega : s.maxTreeLevel = 1 ∨ s.maxTreeLevel = 2) with htop | htop
  · rw [htop, h.testBit_pair (by decide) hl] at hbit
    simpa using Or.inl hbit
  · rw [htop] at hbit
    exact (hrooted htop l hl hbit).imp_right fun hclear => ⟨htop, hclear⟩

/-- Reserving the leaf that the search finds. -/
theorem Overlapping.reserve_choice_leaf (h : Overlapping s) (hsorted : s.Sorted)
    (hrooted : s.Rooted) (hbit : (s.tree s.root).testBit 0 = false) :
    (reserve s 0 (s.choice 0).index).Sorted ∧ (reserve s 0 (s.choice 0).index).Rooted ∧
      ∀ k < 2, (reserve s 0 (s.choice 0).index).ones k =
        s.ones k + if k = (s.choice 0).index / 2 then 1 else 0 := by
  have hone := h.one_le
  have hle := h.le_two
  have hinside := (le_root_iff.mp (choice_le_root (s := s) (Nat.zero_le _))).2
  obtain ⟨k, hk, hclear, hindex⟩ : ∃ k < 2, s.leafBit (2 * k + 1) = false ∧
      (s.choice 0).index = k * 2 + (s.leafBit (2 * k)).toNat := by
    have hroom := h.leafBit_of_room hrooted (by decide) hbit
    have hleaf : ∀ k < 2, (s.tree ⟨0, k * 2⟩).testBit 0 = s.leafBit (2 * k) := by
      intro k hk
      rw [Allocator.tree, getTreeElement_leaf s (by simp only; omega), Nat.mul_comm k 2]
      cases s.leafBit (2 * k) <;> rfl
    have hpair : (s.tree ⟨0 + 1, 0 * 2⟩).testBit 0 = s.leafBit 1 :=
      h.testBit_pair (by decide) (by decide)
    rw [Allocator.choice]
    rcases (by omega : s.maxTreeLevel = 1 ∨ s.maxTreeLevel = 2) with htop | htop
    · refine ⟨0, by decide, hroom.resolve_right (by omega), ?_⟩
      rw [htop, seek_one, hleaf 0 (by decide)]
    · rw [htop, seek_two, hpair, seek_one]
      cases hfirst : s.leafBit 1 with
      | false => exact ⟨0, by decide, hfirst, by rw [← hleaf 0 (by decide)]; rfl⟩
      | true =>
          have hsecond := (hroom.resolve_left (by rw [hfirst]; decide)).2
          exact ⟨1, by decide, hsecond, by rw [← hleaf 1 (by decide)]; rfl⟩
  have hbound : (s.leafBit (2 * k)).toNat ≤ 1 := Bool.toNat_le _
  have hdiv : (s.choice 0).index / 2 = k := by omega
  refine h.reserve_leaf hsorted hinside ?_ ?_
  · rw [hdiv, hclear]
  · rw [hdiv]
    omega

/-- Reserving the pair that the search finds. -/
theorem Overlapping.reserve_choice_pair (h : Overlapping s) (hsorted : s.Sorted)
    (hrooted : s.Rooted) (htop : s.maxTreeLevel = 2) (hbit : (s.tree s.root).testBit 1 = false) :
    (reserve s 1 (s.choice 1).index).Sorted ∧ (reserve s 1 (s.choice 1).index).Rooted ∧
      ∀ k < 2, (reserve s 1 (s.choice 1).index).ones k =
        s.ones k + if k = (s.choice 1).index then 2 else 0 := by
  obtain ⟨hinside, hclear⟩ : (s.choice 1).index < 2 ∧
      s.leafBit (2 * (s.choice 1).index) = false := by
    have hroom := h.leafBit_of_room hrooted (by decide) hbit
    have hpair : (s.tree ⟨1, 0 * 2⟩).testBit 1 = s.leafBit 0 :=
      h.testBit_pair (by decide) (by decide)
    rw [Allocator.choice, htop]
    dsimp only
    rw [seek_one, hpair]
    cases hfirst : s.leafBit 0 with
    | false => exact ⟨by decide, hfirst⟩
    | true => exact ⟨by decide, (hroom.resolve_left (by rw [hfirst]; decide)).2⟩
  exact h.reserve_pair hsorted htop hinside hclear

/-- Reserving the node that the search finds adds its segments to the set bits of its
pair. -/
theorem Overlapping.reserve_choice (h : Overlapping s) (hsorted : s.Sorted) (hrooted : s.Rooted)
    {l : ℕ} (hl : l < s.maxTreeLevel) (hbit : (s.tree s.root).testBit l = false) :
    (reserve s l (s.choice l).index).Sorted ∧ (reserve s l (s.choice l).index).Rooted ∧
      ∀ k < 2, (reserve s l (s.choice l).index).ones k =
        s.ones k + if pairOf (s.choice l) = k then 2 ^ l else 0 := by
  have hle := h.le_two
  rcases (by omega : l = 0 ∨ l = 1) with rfl | rfl
  · obtain ⟨hsorted', hrooted', hones⟩ := h.reserve_choice_leaf hsorted hrooted hbit
    refine ⟨hsorted', hrooted', fun k hk => ?_⟩
    rw [hones k hk, pairOf, choice_level, pow_zero, Nat.mul_one]
    simp only [eq_comm]
  · obtain ⟨hsorted', hrooted', hones⟩ :=
      h.reserve_choice_pair hsorted hrooted (by omega) hbit
    refine ⟨hsorted', hrooted', fun k hk => ?_⟩
    rw [hones k hk, pairOf, choice_level, pow_one, Nat.mul_div_cancel _ (by decide)]
    simp only [eq_comm]

end

end Neos.Kmalloc
