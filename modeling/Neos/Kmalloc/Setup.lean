import Neos.Kmalloc.TreeOps

/-!
# Setting up an arena

`kset` chooses the number of leaves, lays out the level tables at the end of
the arena and marks the segments that hold them.  The result is a well laid out
arena in which those segments are taken.  When the arena ends below the top of
the address space the tables are also cleared first, so that the masks are
exact; an arena ending at the very top is not cleared, because the bound of the
clearing loop wraps to zero, and then only the local invariant holds.
-/

namespace Neos.Kmalloc

open BitMemory BuddyTree

/-! ## The number of leaves -/

theorem leafLoop_spec {edx : ℕ} :
    ∀ (fuel j : ℕ), 2 ^ j < edx → edx ≤ 2 ^ (j + fuel) →
      ∃ m, leafLoop fuel (2 ^ j) edx = 2 ^ m ∧ j < m ∧ 2 ^ (m - 1) < edx ∧ edx ≤ 2 ^ m
  | 0, j, hlt, hle => absurd hle (not_le_of_gt hlt)
  | fuel + 1, j, hlt, hle => by
      have hshift : 2 ^ j <<< 1 = 2 ^ (j + 1) := by
        rw [Nat.shiftLeft_eq, pow_one, ← pow_succ]
      rw [leafLoop, hshift]
      split
      · next hmore =>
          obtain ⟨m, h₁, h₂, h₃⟩ := leafLoop_spec fuel (j + 1) hmore (by
            rwa [Nat.add_assoc, Nat.add_comm 1])
          exact ⟨m, h₁, by omega, h₃⟩
      · next hstop =>
          exact ⟨j + 1, rfl, by omega, by simpa using hlt, by omega⟩

/-! ## The level tables -/

/-- The address of the table of a level. -/
def levelPointer (base m : ℕ) : ℕ → ℕ
  | 0 => base
  | l + 1 => levelPointer base m l + ((2 ^ (m - l) * (l + 1) - 1) / 8 + 1)

theorem levelPointer_base (base m : ℕ) : ∀ l, levelPointer base m l = base + levelPointer 0 m l
  | 0 => rfl
  | l + 1 => by
      rw [levelPointer, levelPointer, levelPointer_base base m l]
      omega

theorem levelPointer_step (base m l : ℕ) :
    8 * levelPointer base m l + 2 ^ (m - l) * (l + 1) ≤ 8 * levelPointer base m (l + 1) := by
  rw [levelPointer]
  omega

theorem levelPointer_ordered (base m : ℕ) {l l' : ℕ} (h : l < l') :
    8 * levelPointer base m l + 2 ^ (m - l) * (l + 1) ≤ 8 * levelPointer base m l' := by
  induction l', h using Nat.le_induction with
  | base => exact levelPointer_step base m l
  | succ l' _ ih =>
      have := levelPointer_step base m l'
      omega

/-- The tables of all levels fit into half a byte per leaf. -/
theorem levelPointer_end {m : ℕ} (h₃ : 3 ≤ m) (h₂₂ : m ≤ 22) :
    levelPointer 0 m (m + 1) ≤ 2 ^ (m - 1) := by
  have hall : ∀ m < 23, 3 ≤ m → levelPointer 0 m (m + 1) ≤ 2 ^ (m - 1) := by
    decide
  exact hall m (by omega) h₃

/-- The layout loop fills in the remaining descriptors. -/
theorem levelLoop_spec {base m : ℕ} :
    ∀ (fuel : ℕ) (s : Allocator) (l : ℕ), l ≤ m → m < fuel + l →
      levelLoop fuel s (2 ^ (m - l)) (levelPointer base m l) l (l + 1) =
        { s with
          treeLevels := fun k =>
            if l ≤ k ∧ k ≤ m then ⟨2 ^ (m - k), levelPointer base m k⟩ else s.treeLevels k
          maxTreeLevel := m }
  | 0, s, l, hl, hfuel => by omega
  | fuel + 1, s, l, hl, hfuel => by
      have hedi : levelPointer base m l + ((2 ^ (m - l) * (l + 1) - 1) >>> 3 + 1) =
          levelPointer base m (l + 1) := by
        rw [levelPointer, Nat.shiftRight_eq_div_pow]
      rw [levelLoop, hedi]
      rcases eq_or_lt_of_le hl with heq | hlt
      · subst heq
        rw [Nat.sub_self, pow_zero, if_neg (by decide)]
        congr 1
        funext k
        by_cases hk : k = l
        · subst hk
          simp
        · have hk' : ¬ (l ≤ k ∧ k ≤ l) := by omega
          simp [hk, hk']
      · have hshift : 2 ^ (m - l) >>> 1 = 2 ^ (m - (l + 1)) := by
          have he : m - l = m - (l + 1) + 1 := by omega
          rw [Nat.shiftRight_eq_div_pow, he, pow_succ, pow_one,
            Nat.mul_div_cancel _ (by decide)]
        have hpos := Nat.two_pow_pos (m - (l + 1))
        rw [hshift, if_pos (by omega), levelLoop_spec fuel _ (l + 1) hlt (by omega)]
        congr 1
        funext k
        by_cases hk : k = l
        · subst hk
          simp [hl]
        · by_cases hin : l + 1 ≤ k ∧ k ≤ m
          · have hin' : l ≤ k ∧ k ≤ m := by omega
            rw [if_pos hin, if_pos hin']
          · have hin' : ¬ (l ≤ k ∧ k ≤ m) := by omega
            rw [if_neg hin, if_neg hin']
            exact Function.update_of_ne hk _ _

/-! ## Clearing the tables -/

theorem zeroLoop_frame {x : ℕ} :
    ∀ (count : ℕ) (m : Memory) (edi : ℕ), (∀ j ≤ count, x ≠ wrap (edi + j)) →
      zeroLoop count m edi x = m x
  | 0, m, edi, h => store_of_ne (h 0 le_rfl)
  | count + 1, m, edi, h => by
      rw [zeroLoop, zeroLoop_frame count]
      · exact store_of_ne (h 0 (by omega))
      · intro j hj
        have := h (j + 1) (by omega)
        rwa [Nat.add_assoc, Nat.add_comm 1]

theorem zeroLoop_zero {x : ℕ} :
    ∀ (count : ℕ) (m : Memory) (edi : ℕ), edi + count < 2 ^ 32 → edi ≤ x → x ≤ edi + count →
      zeroLoop count m edi x = 0
  | 0, m, edi, hlt, h₁, h₂ => by
      have hx : x = wrap edi := by
        rw [wrap_of_lt (by omega)]
        omega
      simp [zeroLoop, store, hx]
  | count + 1, m, edi, hlt, h₁, h₂ => by
      rcases eq_or_lt_of_le h₁ with heq | hgt
      · subst heq
        rw [zeroLoop, zeroLoop_frame]
        · simp [store, wrap_of_lt (show edi < 2 ^ 32 by omega)]
        · intro j hj hx
          rw [wrap_of_lt (by omega)] at hx
          omega
      · exact zeroLoop_zero count _ _ (by omega) hgt (by omega)

/-! ## `kset` -/

/-- The segments that hold the control structure or lie behind the arena. -/
def systemSegments (s : Allocator) : Set Node :=
  leafRange (s.end_ / blockSize) (2 ^ s.maxTreeLevel - 1)

theorem systemSegments_le_root (s : Allocator) : ∀ x ∈ systemSegments s, x ≤ s.root := by
  rintro x ⟨h₀, -, h₁⟩
  have := Nat.two_pow_pos s.maxTreeLevel
  refine le_root_iff.mpr ⟨by omega, ?_⟩
  rw [h₀, Nat.sub_zero]
  omega

theorem Same.systemSegments_eq {s s' : Allocator} (h : Same s s') :
    systemSegments s' = systemSegments s := by
  obtain ⟨m, rfl⟩ := h
  rfl

/-- The arena after the tables are laid out and before any segment is
marked. -/
def laidOut (s₀ : Allocator) (size offset m : ℕ) : Allocator where
  maxTreeLevel := m
  end_ := size - 2 ^ (m - 1)
  size := size
  offset := offset
  blockNumber := size / blockSize
  treeLevels := fun k =>
    if k ≤ m then ⟨2 ^ (m - k), levelPointer (size - 2 ^ (m - 1) + offset) m k⟩
    else s₀.treeLevels k
  mem := zeroLoop ((size + offset) % 2 ^ 32 - (size - 2 ^ (m - 1) + offset + 1)) s₀.mem
    (size - 2 ^ (m - 1) + offset)

section Kset

variable {beyond : ℕ → LevelDescriptor} {mem : Memory} {size offset : ℕ}

theorem levelLoop_laidOut (s₀ : Allocator) (size offset : ℕ) {m : ℕ} (hm : 3 ≤ m) (hm' : m ≤ 22)
    {s : Allocator}
    (hend : s.end_ = size - 2 ^ (m - 1)) (hsize : s.size = size)
    (hoffset : s.offset = offset) (hblock : s.blockNumber = size / blockSize)
    (hmem : s.mem = (laidOut s₀ size offset m).mem)
    (hzero : s.treeLevels 0 = ⟨2 ^ m, size - 2 ^ (m - 1) + offset⟩)
    (hrest : ∀ k, k ≠ 0 → s.treeLevels k = s₀.treeLevels k) :
    levelLoop 32 s (2 ^ (m - 1)) (levelPointer (size - 2 ^ (m - 1) + offset) m 1) 1 2 =
      laidOut s₀ size offset m := by
  rw [levelLoop_spec 32 s 1 (by omega) (by omega), hend, hsize, hoffset, hblock, hmem]
  unfold laidOut
  congr 1
  funext k
  rcases Nat.eq_zero_or_pos k with hk | hk
  · subst hk
    simp [hzero, levelPointer]
  · have hiff : (1 ≤ k ∧ k ≤ m) ↔ k ≤ m := by omega
    simp only [hiff]
    rw [hrest k hk.ne']

theorem kset_eq (s₀ : Allocator) (offset : ℕ) (hsize : 5120 ≤ size) (hlt : size < 2 ^ 32) :
    ∃ m, 3 ≤ m ∧ m ≤ 22 ∧ 2 ^ (m - 1) < size / blockSize ∧ size / blockSize ≤ 2 ^ m ∧
      leafLoop 32 1 (size / blockSize) = 2 ^ m ∧ kset s₀ size offset =
        if (size - 2 ^ (m - 1)) / blockSize > 2 ^ m - 1 then laidOut s₀ size offset m
        else takeSegments (laidOut s₀ size offset m)
          ((size - 2 ^ (m - 1)) / blockSize) (2 ^ m - 1) := by
  have hblocks : 5 ≤ size / blockSize := by unfold blockSize; omega
  have hblocks' : size / blockSize ≤ 2 ^ (0 + 32) := by unfold blockSize; omega
  obtain ⟨m, hm, -, hlow, hhigh⟩ := leafLoop_spec 32 0 (by omega) hblocks'
  rw [pow_zero] at hm
  have h₃ : 3 ≤ m := by
    by_contra hcon
    have : 2 ^ m ≤ 2 ^ 2 := Nat.pow_le_pow_right (by decide) (by omega)
    omega
  have h₂₂ : m ≤ 22 := by
    by_contra hcon
    have : 2 ^ 22 ≤ 2 ^ (m - 1) := Nat.pow_le_pow_right (by decide) (by omega)
    unfold blockSize at hlow
    omega
  refine ⟨m, h₃, h₂₂, hlow, hhigh, hm, ?_⟩
  have hdouble : 2 ^ m = 2 * 2 ^ (m - 1) := by
    rw [← pow_succ']
    congr 1
    omega
  have hhalf : (2 ^ m - 1) >>> 1 + 1 = 2 ^ (m - 1) := by
    rw [Nat.shiftRight_eq_div_pow, hdouble]
    have := Nat.two_pow_pos (m - 1)
    omega
  have hend : (size + 2 ^ 32 - 2 ^ (m - 1)) % 2 ^ 32 = size - 2 ^ (m - 1) := by
    unfold blockSize at hlow
    omega
  have hnext : 2 ^ m >>> 1 = 2 ^ (m - 1) := by
    rw [Nat.shiftRight_eq_div_pow, hdouble]
    omega
  have heighth : 2 ^ m >>> 3 + (size - 2 ^ (m - 1)) + offset =
      levelPointer (size - 2 ^ (m - 1) + offset) m 1 := by
    have hdvd : 2 ^ m = 8 * 2 ^ (m - 3) := by
      rw [show (8 : ℕ) = 2 ^ 3 from rfl, ← pow_add]
      congr 1
      omega
    rw [levelPointer, levelPointer, Nat.sub_zero, Nat.shiftRight_eq_div_pow]
    have := Nat.two_pow_pos (m - 3)
    omega
  unfold kset initializeTree
  simp only [hm, hhalf, hend, Function.update_self, hnext, heighth]
  rw [levelLoop_laidOut s₀ size offset h₃ h₂₂]
  case hzero => simp only [Function.update_self]
  case hrest =>
    intro k hk
    simp only [Function.update_of_ne hk]
  all_goals rfl

variable (beyond mem) in
theorem laidOut_layout {m : ℕ} (h₃ : 3 ≤ m) (h₂₂ : m ≤ 22)
    (hlow : 2 ^ (m - 1) < size / blockSize) (hhigh : size / blockSize ≤ 2 ^ m)
    (hfits : offset + size ≤ 2 ^ 32) : Layout (laidOut (boot beyond mem) size offset m) := by
  have hblock : 2 ^ (m - 1) ≤ size :=
    hlow.le.trans (Nat.div_le_self _ _)
  have hend : size - 2 ^ (m - 1) + 2 ^ (m - 1) = size := Nat.sub_add_cancel hblock
  have hptr : ∀ l ≤ m, ((laidOut (boot beyond mem) size offset m).treeLevels l).pointer =
      levelPointer (size - 2 ^ (m - 1) + offset) m l := by
    intro l hl
    simp [laidOut, hl]
  have hbase : ∀ l, size - 2 ^ (m - 1) + offset ≤
      levelPointer (size - 2 ^ (m - 1) + offset) m l := by
    intro l
    rw [levelPointer_base]
    exact Nat.le_add_right _ _
  constructor
  · exact h₃
  · exact h₂₂
  · intro l hl
    change l ≤ m at hl
    simp [laidOut, hl]
  · intro l hl
    rw [hptr l hl]
    have := hbase l
    simp only [laidOut]
    omega
  · intro l hl
    change l ≤ m at hl
    rw [hptr l hl]
    have h₁ := levelPointer_ordered (size - 2 ^ (m - 1) + offset) m (Nat.lt_succ_of_le hl)
    have h₂ := levelPointer_end h₃ h₂₂
    rw [levelPointer_base _ m (m + 1)] at h₁
    simp only [laidOut]
    omega
  · intro l l' hlt hl
    change l' ≤ m at hl
    rw [hptr l (by omega), hptr l' hl]
    exact levelPointer_ordered _ m hlt
  · exact hfits
  · have h₁ : ¬ m + 1 ≤ m := by omega
    have h₂ : m + 1 < 32 := by omega
    simp [laidOut, boot, h₁, h₂]
  · exact hend
  · exact hhigh
  · exact hlow

/-- The tables are clear when the arena ends below the top of the address
space. -/
theorem laidOut_tree_zero {m : ℕ} (hl : Layout (laidOut (boot beyond mem) size offset m))
    (hfits : offset + size < 2 ^ 32) {z : Node}
    (hz : z ≤ (laidOut (boot beyond mem) size offset m).root) :
    (laidOut (boot beyond mem) size offset m).tree z = 0 := by
  set s := laidOut (boot beyond mem) size offset m with hs
  have hstart := hl.element_start_ge hz
  have hstop := hl.element_end_le hz
  have hsum : s.end_ + s.offset = size - 2 ^ (m - 1) + offset := rfl
  have hsize : s.size = size := rfl
  have hoffset : s.offset = offset := rfl
  refine Nat.eq_of_testBit_eq fun i => ?_
  unfold Allocator.tree
  rw [testBit_getTreeElement s ((hl.level_le hz).trans (by decide)) (hl.node_lt hz),
    Nat.zero_testBit]
  by_cases hi : i ≤ z.level
  · have hbyte : s.mem ((elementBit s z.level z.index + (z.level - i)) / 8) = 0 := by
      apply zeroLoop_zero
      · rw [Nat.mod_eq_of_lt (by omega)]
        omega
      · omega
      · rw [Nat.mod_eq_of_lt (by omega)]
        omega
    rw [bit, load, wrap_of_lt (by omega), hbyte]
    simp
  · simp [hi]

/-- What `kset` establishes. -/
structure Ready (s : Allocator) : Prop where
  layout : Layout s
  settled : Settled s.tree s.root (systemSegments s)

variable (beyond mem) in
theorem kset_ready (hsize : 5120 ≤ size) (hlt : size < 2 ^ 32)
    (hfits : offset + size ≤ 2 ^ 32) :
    Ready (kset (boot beyond mem) size offset) ∧
      (kset (boot beyond mem) size offset).offset = offset ∧
      (kset (boot beyond mem) size offset).size = size ∧
      (offset + size < 2 ^ 32 →
        Exact (kset (boot beyond mem) size offset).tree
          (kset (boot beyond mem) size offset).root
          (systemSegments (kset (boot beyond mem) size offset))) := by
  obtain ⟨m, h₃, h₂₂, hlow, hhigh, -, heq⟩ :=
    kset_eq (boot beyond mem) offset hsize hlt
  have hl := laidOut_layout beyond mem h₃ h₂₂ hlow hhigh hfits
  have hzero : offset + size < 2 ^ 32 →
      Exact (laidOut (boot beyond mem) size offset m).tree
        (laidOut (boot beyond mem) size offset m).root ∅ :=
    fun h => exact_empty fun z hz => laidOut_tree_zero hl h hz
  rw [heq]
  split
  · next hskip =>
      have hempty : systemSegments (laidOut (boot beyond mem) size offset m) = ∅ := by
        rw [Set.eq_empty_iff_forall_notMem]
        rintro x ⟨-, hx₁, hx₂⟩
        simp only [laidOut] at hx₁ hx₂
        omega
      rw [hempty]
      refine ⟨⟨hl, ?_⟩, rfl, rfl, hzero⟩
      rw [hempty]
      exact ⟨fun x hx => absurd hx (Set.notMem_empty x),
        fun x hx => absurd hx (Set.notMem_empty x)⟩
  · next hmark =>
      have hlast : (⟨0, 2 ^ m - 1⟩ : Node) ≤ (laidOut (boot beyond mem) size offset m).root := by
        have := Nat.two_pow_pos m
        refine le_root_iff.mpr ⟨Nat.zero_le _, ?_⟩
        simp only [laidOut, Nat.sub_zero]
        omega
      have hsame := takeSegments_same (laidOut (boot beyond mem) size offset m)
        ((size - 2 ^ (m - 1)) / blockSize) (2 ^ m - 1)
      have hrange := hl.takeSegments_rangeTaken (Nat.le_of_not_lt hmark) hlast
      refine ⟨⟨hl.same hsame, ?_⟩, ?_, ?_, fun h => ?_⟩
      · rw [hsame.root_eq, hsame.systemSegments_eq]
        exact hrange.settled
      · obtain ⟨mem', hmem'⟩ := hsame
        rw [hmem']
        rfl
      · obtain ⟨mem', hmem'⟩ := hsame
        rw [hmem']
        rfl
      · have hex := (hzero h).takeRange (fun x hx => absurd hx (Set.notMem_empty x))
          (fun x hx => absurd hx (Set.notMem_empty x)) hrange
        rw [Set.empty_union] at hex
        rw [hsame.root_eq, hsame.systemSegments_eq]
        exact hex

end Kset

end Neos.Kmalloc
