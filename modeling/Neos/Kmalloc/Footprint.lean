import Neos.Kmalloc.Setup

/-!
# What marking segments writes

Marking a range of segments writes the tables of the levels, and the word the
descriptor behind the root points to, which lies at address `0`.  The memory in
front of the tables stays as it is.
-/

namespace Neos.Kmalloc

open BitMemory BuddyTree

/-- The first byte behind the words at address `0`. -/
def lowEnd : ℕ := 4

/-- The same arena, and the same memory between the words at address `0` and
the tables. -/
structure Confined (s s' : Allocator) : Prop where
  same : Same s s'
  mem_eq : ∀ a, lowEnd ≤ a → a < s.offset + s.end_ → s'.mem a = s.mem a

theorem Confined.refl (s : Allocator) : Confined s s := ⟨Same.refl s, fun _ _ _ => rfl⟩

theorem Confined.trans {s s' s'' : Allocator} (h : Confined s s') (h' : Confined s' s'') :
    Confined s s'' := by
  refine ⟨h.same.trans h'.same, fun a hlow hhigh => ?_⟩
  have hhigh' : a < s'.offset + s'.end_ := by
    obtain ⟨m, hm⟩ := h.same
    rwa [hm]
  rw [h'.mem_eq a hlow hhigh', h.mem_eq a hlow hhigh]

/-- The nodes that are written: those of the tree and the one above its
root. -/
def Allocator.Writable (s : Allocator) (level node : ℕ) : Prop :=
  (⟨level, node⟩ : Node) ≤ s.root ∨ level = s.maxTreeLevel + 1 ∧ node = 0

section

variable {s : Allocator} {level node last : ℕ}

theorem Same.writable_iff {s' : Allocator} (h : Same s s') :
    s'.Writable level node ↔ s.Writable level node := by
  obtain ⟨m, rfl⟩ := h
  rfl

theorem Allocator.Writable.mono (h : s.Writable level last) (hle : node ≤ last) :
    s.Writable level node := by
  rcases h with htree | ⟨hlevel, hlast⟩
  · have hroot := le_root_iff.mp htree
    exact Or.inl (le_root_iff.mpr ⟨hroot.1, hle.trans_lt hroot.2⟩)
  · exact Or.inr ⟨hlevel, by omega⟩

/-- Above a node of the tree there is a node of the tree or the one above its
root. -/
theorem Allocator.Writable.parent (h : (⟨level, node⟩ : Node) ≤ s.root) :
    s.Writable (level + 1) (node / 2) := by
  have hroot := le_root_iff.mp h
  rcases eq_or_lt_of_le hroot.1 with heq | hlt
  · refine Or.inr ⟨congrArg (· + 1) heq, ?_⟩
    have hzero := hroot.2
    simp only at heq hzero
    rw [heq, Nat.sub_self, pow_zero] at hzero
    omega
  · exact Or.inl (parent_le_root h hlt)

theorem Layout.setTreeElement_confined (h : Layout s) (hw : s.Writable level node) (v : ℕ) :
    Confined s (setTreeElement s level node v) := by
  refine ⟨setTreeElement_same s level node v, fun a hlow hhigh => ?_⟩
  have hfits := h.fits
  have hend := h.end_eq
  have hmax := h.le_twentyTwo
  have hpos := Nat.two_pow_pos (s.maxTreeLevel - 1)
  refine eq_of_bits (by omega) fun b hb => ?_
  rcases hw with htree | ⟨rfl, rfl⟩
  · have hstart := h.element_start_ge htree
    have hstop := h.element_end_le htree
    have hlevel : level ≤ 24 := (h.level_le htree).trans (by decide)
    have hnode : node * (level + 1) < 2 ^ 32 := h.node_lt htree
    simp only at hstart hstop
    rw [bit_setTreeElement s hlevel hnode (by omega) (by omega), if_neg (by omega)]
  · -- the descriptor behind the root's is still zero
    have hzero : elementBit s (s.maxTreeLevel + 1) 0 = 0 := by
      rw [elementBit, h.beyond, Nat.mul_zero, Nat.zero_mul]
    rw [bit_setTreeElement s (by omega) (by omega) (by omega) (by omega), if_neg]
    unfold lowEnd at hlow
    omega

theorem Layout.areaSetTreeElementLoop_confined (h : Layout s) {v : ℕ} :
    ∀ (fuel node : ℕ), node ≤ last → s.Writable level last →
      Confined s (areaSetTreeElementLoop level v last fuel s node) := by
  intro fuel
  induction fuel generalizing s with
  | zero => exact fun _ _ _ => Confined.refl s
  | succ fuel ih =>
      intro node hle hw
      have hset := h.setTreeElement_confined (hw.mono hle) v
      rw [areaSetTreeElementLoop]
      split
      · next hmore =>
          exact hset.trans (ih (h.same hset.same) _ hmore (hset.same.writable_iff.mpr hw))
      · exact hset

theorem Layout.levelBuddifyLoop_confined (h : Layout s) :
    ∀ (fuel node : ℕ), node ≤ last → s.Writable level last →
      Confined s (levelBuddifyLoop level last fuel s node) := by
  intro fuel
  induction fuel generalizing s with
  | zero => exact fun _ _ _ => Confined.refl s
  | succ fuel ih =>
      intro node hle hw
      have hset : Confined s (buddify s level node) :=
        h.setTreeElement_confined (hw.mono hle) _
      rw [levelBuddifyLoop]
      split
      · next hmore =>
          exact hset.trans (ih (h.same hset.same) _ hmore (hset.same.writable_iff.mpr hw))
      · exact hset

theorem Layout.areafullBuddifyLoop_confined (h : Layout s) :
    ∀ (fuel level first last : ℕ), first ≤ last → (⟨level, last⟩ : Node) ≤ s.root →
      Confined s (areafullBuddifyLoop fuel s level first last) := by
  intro fuel
  induction fuel generalizing s with
  | zero => exact fun _ _ _ _ _ => Confined.refl s
  | succ fuel ih =>
      intro level first last hle hroot
      have hset : Confined s (levelBuddify s (level + 1) (first / 2) (last / 2)) :=
        h.levelBuddifyLoop_confined _ _ (Nat.div_le_div_right hle) (.parent hroot)
      rw [areafullBuddifyLoop]
      split
      · next hmore =>
          have hmax : level + 1 ≤ s.maxTreeLevel := by
            obtain ⟨m, hm⟩ := hset.same
            rwa [hm] at hmore
          have hnext : (⟨level + 1, last / 2⟩ : Node) ≤ s.root := parent_le_root hroot hmax
          exact hset.trans (ih (h.same hset.same) _ _ _ (Nat.div_le_div_right hle)
            (hset.same.root_eq ▸ hnext))
      · exact hset

/-- Marking segments of the tree writes nothing but the tables and the words at
address `0`. -/
theorem Layout.takeSegments_confined (h : Layout s) {first last : ℕ} (hle : first ≤ last)
    (hroot : (⟨0, last⟩ : Node) ≤ s.root) : Confined s (takeSegments s first last) := by
  have hset : Confined s (areaSetTreeElement s 0 first last 1) :=
    h.areaSetTreeElementLoop_confined _ _ hle (.inl hroot)
  exact hset.trans ((h.same hset.same).areafullBuddifyLoop_confined _ _ _ _ hle
    (hset.same.root_eq ▸ hroot))

theorem Layout.fullBuddifyLoop_confined (h : Layout s) :
    ∀ (fuel level node : ℕ), (⟨level, node⟩ : Node) ≤ s.root →
      Confined s (fullBuddifyLoop fuel s level node) := by
  intro fuel
  induction fuel generalizing s with
  | zero => exact fun _ _ _ => Confined.refl s
  | succ fuel ih =>
      intro level node hroot
      have hset : Confined s (buddify s (level + 1) (node / 2)) :=
        h.setTreeElement_confined (.parent hroot) _
      rw [fullBuddifyLoop]
      split
      · next hmore =>
          have hmax : level + 1 < s.maxTreeLevel := by
            obtain ⟨m, hm⟩ := hset.same
            rwa [hm] at hmore
          have hnext : (⟨level + 1, node / 2⟩ : Node) ≤ s.root :=
            parent_le_root hroot (Nat.lt_of_succ_lt hmax)
          exact hset.trans (ih (h.same hset.same) _ _ (hset.same.root_eq ▸ hnext))
      · exact hset

/-- Giving a node of the tree a mask and updating its ancestors writes nothing but the
tables and the words at address `0`. -/
theorem Layout.set_fullBuddify_confined (h : Layout s) (hroot : (⟨level, node⟩ : Node) ≤ s.root)
    (v : ℕ) : Confined s (fullBuddify (setTreeElement s level node v) level node) := by
  have hset := h.setTreeElement_confined (.inl hroot) v
  exact hset.trans ((h.same hset.same).fullBuddifyLoop_confined _ _ _
    (hset.same.root_eq ▸ hroot))

theorem Layout.reserve_confined (h : Layout s) (hroot : (⟨level, node⟩ : Node) ≤ s.root) :
    Confined s (reserve s level node) :=
  h.set_fullBuddify_confined hroot _

theorem Layout.kfree_confined (h : Layout s) {pointer : ℕ}
    (hroot : (⟨0, segmentOf s pointer⟩ : Node) ≤ s.root) : Confined s (kfree s pointer) :=
  h.set_fullBuddify_confined hroot _

/-! ## Ranges that end before they begin -/

theorem levelBuddifyLoop_stop (s : Allocator) (level : ℕ) {first last : ℕ} (hle : last ≤ first)
    (fuel : ℕ) : levelBuddifyLoop level last (fuel + 1) s first = buddify s level first := by
  rw [levelBuddifyLoop, if_neg (by omega)]

theorem areafullBuddifyLoop_stop :
    ∀ (fuel : ℕ) (s : Allocator) (level first last : ℕ), last ≤ first →
      areafullBuddifyLoop fuel s level first last =
        areafullBuddifyLoop fuel s level first first
  | 0, _, _, _, _, _ => rfl
  | fuel + 1, s, level, first, last, hle => by
      have hhalf : last / 2 ≤ first / 2 := Nat.div_le_div_right hle
      have hlevel : levelBuddify s (level + 1) (first / 2) (last / 2) =
          levelBuddify s (level + 1) (first / 2) (first / 2) := by
        rw [levelBuddify, levelBuddify, levelBuddifyLoop_stop s _ hhalf,
          levelBuddifyLoop_stop s _ le_rfl]
      rw [areafullBuddifyLoop, areafullBuddifyLoop, hlevel,
        areafullBuddifyLoop_stop fuel _ _ _ _ hhalf]

/-- A range that ends before it begins still marks its first segment. -/
theorem takeSegments_max (s : Allocator) (first last : ℕ) :
    takeSegments s first last = takeSegments s first (max first last) := by
  rcases Nat.le_total first last with hle | hle
  · rw [max_eq_right hle]
  · have hset : areaSetTreeElement s 0 first last 1 = areaSetTreeElement s 0 first first 1 := by
      rw [areaSetTreeElement, areaSetTreeElement, areaSetTreeElementLoop,
        areaSetTreeElementLoop, if_neg (by omega), if_neg (by omega)]
    rw [max_eq_left hle, takeSegments, takeSegments, hset, areafullBuddify, areafullBuddify,
      areafullBuddifyLoop_stop _ _ _ _ _ hle]

end

/-! ## Setting up -/

/-- `kset` writes nothing in front of the tables but the words at address
`0`. -/
theorem kset_confined {beyond : ℕ → LevelDescriptor} {mem : Memory} {size offset a : ℕ}
    (hsize : 5120 ≤ size) (hfits : offset + size ≤ 2 ^ 32) (hlt : size < 2 ^ 32)
    (hlow : lowEnd ≤ a)
    (hhigh : a < offset + (kset (boot beyond mem) size offset).end_) :
    (kset (boot beyond mem) size offset).mem a = mem a := by
  obtain ⟨m, h₃, h₂₂, hlevels, hblocks, -, heq⟩ := kset_eq (boot beyond mem) offset hsize hlt
  have hl := laidOut_layout beyond mem h₃ h₂₂ hlevels hblocks hfits
  have hend : (kset (boot beyond mem) size offset).end_ = size - 2 ^ (m - 1) := by
    rw [heq]
    split
    · rfl
    · obtain ⟨mem', hmem'⟩ := takeSegments_same (laidOut (boot beyond mem) size offset m)
        ((size - 2 ^ (m - 1)) / blockSize) (2 ^ m - 1)
      rw [hmem']
      rfl
  rw [hend] at hhigh
  have hpos := Nat.two_pow_pos (m - 1)
  have hzero : (laidOut (boot beyond mem) size offset m).mem a = mem a := by
    refine zeroLoop_frame _ _ _ fun j hj => ?_
    have hsum : size - 2 ^ (m - 1) + offset + j < 2 ^ 32 := by
      have := Nat.mod_le (size + offset) (2 ^ 32)
      omega
    rw [wrap_of_lt hsum]
    omega
  rw [heq]
  split
  · exact hzero
  · next hmark =>
      have hlast : (⟨0, 2 ^ m - 1⟩ : Node) ≤ (laidOut (boot beyond mem) size offset m).root := by
        refine le_root_iff.mpr ⟨Nat.zero_le _, ?_⟩
        simp only [laidOut, Nat.sub_zero]
        omega
      have hconf := hl.takeSegments_confined (Nat.le_of_not_lt hmark) hlast
      rw [hconf.mem_eq a hlow]
      · exact hzero
      · simp only [laidOut]
        exact hhigh

end Neos.Kmalloc
