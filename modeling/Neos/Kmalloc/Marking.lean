import Neos.Kmalloc.Setup

/-!
# Marking segments of a fresh arena

In an arena whose last segment is not whole, that segment may lie behind the tree.
Marking it writes into the table of the next level.  What is written over is rebuilt
afterwards when the marked range begins in the first node of that level, and stays
otherwise.
-/

namespace Neos.Kmalloc

open BitMemory BuddyTree

section Behind

variable {s : Allocator} {z : Node}

/-! ## Marking the segment behind the tree -/

theorem Layout.tree_buddify_behind (h : Layout s) (hfits : s.offset + s.size < 2 ^ 32) {l : ℕ}
    (hl : l ≤ s.maxTreeLevel) (hz : z ≤ s.root) (hzl : z.level ≤ l) :
    (buddify s l (2 ^ (s.maxTreeLevel - l))).tree z = s.tree z :=
  h.tree_set_behind hfits hl _ hz hzl

theorem Same.fits {s s' : Allocator} (h : Same s s') (hfits : s.offset + s.size < 2 ^ 32) :
    s'.offset + s'.size < 2 ^ 32 := by
  obtain ⟨m, rfl⟩ := h
  exact hfits

theorem Same.maxTreeLevel_eq {s s' : Allocator} (h : Same s s') :
    s'.maxTreeLevel = s.maxTreeLevel := congrArg Node.level h.root_eq

/-- Marking up to the segment behind the tree marks every leaf from the first one on. -/
theorem Layout.tree_areaSet_behind (h : Layout s) (hfits : s.offset + s.size < 2 ^ 32) :
    ∀ (fuel node : ℕ), 2 ^ s.maxTreeLevel < fuel + node → node ≤ 2 ^ s.maxTreeLevel →
      ∀ n, (⟨0, n⟩ : Node) ≤ s.root →
        (areaSetTreeElementLoop 0 1 (2 ^ s.maxTreeLevel) fuel s node).tree ⟨0, n⟩ =
          if node ≤ n then 1 else s.tree ⟨0, n⟩ := by
  intro fuel
  induction fuel generalizing s with
  | zero =>
      intro node hfuel hle
      omega
  | succ fuel ih =>
      intro node hfuel hle n hn
      have hlt := (le_root_iff.mp hn).2
      simp only [Nat.sub_zero] at hlt
      rw [areaSetTreeElementLoop]
      split
      · next hmore =>
          have hnode : (⟨0, node⟩ : Node) ≤ s.root :=
            le_root_iff.mpr ⟨Nat.zero_le _, by simp only [Nat.sub_zero]; omega⟩
          have hsame := setTreeElement_same s 0 node 1
          have hset := h.tree_set hnode 1 hn
          have hrest := ih (h.same hsame) (hsame.fits hfits) (node + 1)
            (by rw [hsame.maxTreeLevel_eq]; omega) (by rw [hsame.maxTreeLevel_eq]; omega) n
            (hsame.root_eq ▸ hn)
          rw [hsame.maxTreeLevel_eq, hset] at hrest
          rw [hrest]
          by_cases heq : node = n
          · rw [if_neg (by omega), if_pos (by rw [heq]), if_pos heq.le]
            rfl
          · rw [if_neg (fun hc => heq (Node.mk.inj hc).2.symm)]
            by_cases hle' : node ≤ n
            · rw [if_pos (by omega), if_pos hle']
            · rw [if_neg (by omega), if_neg hle']
      · next hlast =>
          have hnode : node = 2 ^ s.maxTreeLevel := by omega
          have hset := h.tree_set_behind hfits (Nat.zero_le _) 1 hn (Nat.zero_le _)
          rw [Nat.sub_zero, ← hnode] at hset
          rw [hset, if_neg (by omega)]

/-- The last element that is set is the one behind the leaves. -/
theorem areaSet_last (endNode : ℕ) :
    ∀ (fuel : ℕ) (s : Allocator) (node : ℕ), endNode < fuel + node → node ≤ endNode →
      ∃ s', Same s s' ∧
        areaSetTreeElementLoop 0 1 endNode fuel s node = setTreeElement s' 0 endNode 1
  | 0, s, node, hfuel, hle => by omega
  | fuel + 1, s, node, hfuel, hle => by
      rw [areaSetTreeElementLoop]
      split
      · next hmore =>
          obtain ⟨s', hsame, hloop⟩ := areaSet_last endNode fuel (setTreeElement s 0 node 1)
            (node + 1) (by omega) hmore
          exact ⟨s', (setTreeElement_same s 0 node 1).trans hsame, hloop⟩
      · next hlast =>
          have hnode : node = endNode := by omega
          exact ⟨s, Same.refl s, by rw [hnode]⟩

/-- Rebuilding a level up to the node behind it rebuilds every node from the first one
on, and leaves the levels below alone. -/
theorem Layout.tree_levelBuddify_behind (h : Layout s) (hfits : s.offset + s.size < 2 ^ 32)
    {l : ℕ} (hl : l + 1 ≤ s.maxTreeLevel) :
    ∀ (fuel node : ℕ), 2 ^ (s.maxTreeLevel - (l + 1)) < fuel + node →
      node ≤ 2 ^ (s.maxTreeLevel - (l + 1)) → ∀ z ≤ s.root, z.level ≤ l + 1 →
        (levelBuddifyLoop (l + 1) (2 ^ (s.maxTreeLevel - (l + 1))) fuel s node).tree z =
          if z.level = l + 1 ∧ node ≤ z.index then
            join l (s.tree (Node.left l z.index)) (s.tree (Node.right l z.index))
          else s.tree z := by
  intro fuel
  induction fuel generalizing s with
  | zero =>
      intro node hfuel hle
      omega
  | succ fuel ih =>
      intro node hfuel hle z hz hzl
      have hidx := (le_root_iff.mp hz).2
      rw [levelBuddifyLoop]
      split
      · next hmore =>
          have hnode : (⟨l + 1, node⟩ : Node) ≤ s.root :=
            le_root_iff.mpr ⟨hl, by simp only; omega⟩
          have hsame := buddify_same s (l + 1) node
          have hrest := ih (h.same hsame) (hsame.fits hfits)
            (by rw [hsame.maxTreeLevel_eq]; exact hl) (node + 1)
            (by rw [hsame.maxTreeLevel_eq]; omega) (by rw [hsame.maxTreeLevel_eq]; omega) z
            (hsame.root_eq ▸ hz) hzl
          rw [hsame.maxTreeLevel_eq] at hrest
          rw [hrest]
          by_cases hin : z.level = l + 1 ∧ node + 1 ≤ z.index
          · have hzn : (⟨l + 1, z.index⟩ : Node) ≤ s.root := by
              rw [← hin.1]
              exact hz
            have hleft := (Node.left_lt l z.index).le.trans hzn
            have hright := (Node.right_lt l z.index).le.trans hzn
            rw [if_pos hin, if_pos ⟨hin.1, by omega⟩, h.tree_buddify hnode hleft,
              h.tree_buddify hnode hright, if_neg (by simp), if_neg (by simp)]
          · rw [if_neg hin, h.tree_buddify hnode hz]
            by_cases heq : z = ⟨l + 1, node⟩
            · rw [if_pos heq, heq, if_pos ⟨rfl, le_rfl⟩]
            · rw [if_neg heq, if_neg]
              rintro ⟨hlevel, hle'⟩
              rcases eq_or_lt_of_le hle' with he | hlt
              · exact heq (Node.ext hlevel he.symm)
              · exact hin ⟨hlevel, hlt⟩
      · next hlast =>
          have hnode : node = 2 ^ (s.maxTreeLevel - (l + 1)) := by omega
          rw [hnode, h.tree_buddify_behind hfits hl hz hzl, if_neg]
          rintro ⟨hlevel, hle'⟩
          rw [hlevel] at hidx
          omega

/-- Rebuilding above a range that ends behind level `base` leaves that level alone; a
range that begins in the first node of the next level rebuilds everything above. -/
theorem Layout.areafullBuddify_behind (h : Layout s) (hfits : s.offset + s.size < 2 ^ 32) :
    ∀ (fuel base a : ℕ), s.maxTreeLevel < fuel + base → base ≤ s.maxTreeLevel →
      a ≤ 2 ^ (s.maxTreeLevel - base) →
      (∀ z ≤ s.root, z.level ≤ base →
        (areafullBuddifyLoop fuel s base a (2 ^ (s.maxTreeLevel - base))).tree z = s.tree z) ∧
      (a / 2 = 0 → ∀ l n, base ≤ l → (⟨l + 1, n⟩ : Node) ≤ s.root →
        IsJoin (areafullBuddifyLoop fuel s base a (2 ^ (s.maxTreeLevel - base))).tree l n) := by
  intro fuel
  induction fuel generalizing s with
  | zero =>
      intro base a hfuel hbase
      omega
  | succ fuel ih =>
      intro base a hfuel hbase ha
      rw [areafullBuddifyLoop]
      rcases Nat.lt_or_eq_of_le hbase with hlt | heq
      · have hhalf : 2 ^ (s.maxTreeLevel - base) / 2 = 2 ^ (s.maxTreeLevel - (base + 1)) := by
          have he : s.maxTreeLevel - base = s.maxTreeLevel - (base + 1) + 1 := by omega
          rw [he, pow_succ, Nat.mul_div_cancel _ (by decide)]
        rw [hhalf]
        have hsame : Same s (levelBuddify s (base + 1) (a / 2)
            (2 ^ (s.maxTreeLevel - (base + 1)))) := levelBuddifyLoop_same _ _ _ s _
        have hlevel := h.tree_levelBuddify_behind hfits (l := base) hlt
          (2 ^ (s.maxTreeLevel - (base + 1)) + 1) (a / 2) (by omega) (by omega)
        rw [← levelBuddify] at hlevel
        generalize levelBuddify s (base + 1) (a / 2) (2 ^ (s.maxTreeLevel - (base + 1))) = s₁ at *
        have hmax := hsame.maxTreeLevel_eq
        rw [hmax, if_pos (Nat.succ_le_of_lt hlt)]
        have hrest := ih (h.same hsame) (hsame.fits hfits) (base + 1) (a / 2) (by omega)
          (by omega) (by rw [hmax]; omega)
        rw [hmax, hsame.root_eq] at hrest
        obtain ⟨hkept, hjoined⟩ := hrest
        constructor
        · intro z hz hzl
          rw [hkept z hz (by omega), hlevel z hz (by omega), if_neg (by omega)]
        · intro ha0 l n hl hn
          rcases Nat.eq_or_lt_of_le hl with rfl | hl'
          · have hleft := (Node.left_lt base n).le.trans hn
            have hright := (Node.right_lt base n).le.trans hn
            rw [IsJoin, hkept _ hn le_rfl, hkept _ hleft (by simp), hkept _ hright (by simp),
              hlevel _ hn le_rfl, hlevel _ hleft (by simp), hlevel _ hright (by simp),
              if_pos ⟨rfl, by omega⟩, if_neg (by simp), if_neg (by simp)]
          · exact hjoined (by omega) l n hl' hn
      · -- the step above the root
        rw [heq, Nat.sub_self, pow_zero] at ha
        have ha0 : a / 2 = 0 := by omega
        have hbeyond : ∀ z ≤ s.root,
            (levelBuddify s (base + 1) (a / 2) (2 ^ (s.maxTreeLevel - base) / 2)).tree z =
              s.tree z := by
          intro z hz
          rw [heq, Nat.sub_self, ha0]
          exact h.tree_buddify_beyond hz
        have hmax : (levelBuddify s (base + 1) (a / 2) (2 ^ (s.maxTreeLevel - base) / 2)).maxTreeLevel
            = s.maxTreeLevel :=
          Same.maxTreeLevel_eq (levelBuddifyLoop_same _ _ _ s _)
        rw [hmax, if_neg (by omega)]
        refine ⟨fun z hz _ => hbeyond z hz, fun _ l n hl hn => ?_⟩
        have hroot := (le_root_iff.mp hn).1
        simp only at hroot
        omega

end Behind

/-! ## A fresh arena -/

/-- The number of segments in front of the control structure. -/
def Allocator.front (s : Allocator) : ℕ := s.end_ / blockSize

/-- An arena as `kset` leaves it. -/
structure Fresh (s : Allocator) : Prop where
  layout : Layout s
  exact : Exact s.tree s.root (systemSegments s)
  fits : s.offset + s.size < 2 ^ 32
  adjacent : elementBit s 0 (2 ^ s.maxTreeLevel) = elementBit s 1 0

theorem kset_fresh (beyond : ℕ → LevelDescriptor) (mem : Memory) {size offset : ℕ}
    (hsize : 5 * blockSize ≤ size) (hfits : offset + size < 2 ^ 32) :
    Fresh (kset (boot beyond mem) size offset) ∧
      (kset (boot beyond mem) size offset).offset = offset ∧
      (kset (boot beyond mem) size offset).size = size := by
  obtain ⟨hready, hoff, hsz, hexact⟩ := kset_ready beyond mem hsize (by omega) hfits.le
  refine ⟨⟨hready.layout, hexact hfits, by rw [hoff, hsz]; exact hfits, ?_⟩, hoff, hsz⟩
  obtain ⟨m, h₃, h₂₂, -, -, -, heq⟩ := kset_eq (boot beyond mem) offset hsize (by omega)
  have hlaid : elementBit (laidOut (boot beyond mem) size offset m) 0 (2 ^ m) =
      elementBit (laidOut (boot beyond mem) size offset m) 1 0 := by
    have hdvd : 2 ^ m = 8 * 2 ^ (m - 3) := by
      rw [show (8 : ℕ) = 2 ^ 3 from rfl, ← pow_add]
      congr 1
      omega
    have hone : 1 ≤ m := by omega
    have hpos := Nat.two_pow_pos (m - 3)
    simp only [elementBit, laidOut, Nat.zero_le, hone, if_true, levelPointer, Nat.sub_zero]
    omega
  rw [heq]
  split
  · exact hlaid
  · obtain ⟨mem', hmem'⟩ := takeSegments_same (laidOut (boot beyond mem) size offset m)
      ((size - 2 ^ (m - 1)) / blockSize) (2 ^ m - 1)
    rw [hmem']
    exact hlaid

section

variable {s : Allocator}

theorem leaf_le_root_iff {n : ℕ} : (⟨0, n⟩ : Node) ≤ s.root ↔ n < 2 ^ s.maxTreeLevel := by
  rw [le_root_iff]
  simp only [Nat.zero_le, true_and, Nat.sub_zero]

theorem Layout.front_bounds (h : Layout s) :
    4 ≤ s.front ∧ s.front ≤ 2 ^ s.maxTreeLevel ∧ s.front * blockSize + 4 ≤ s.size := by
  have hend := h.end_eq
  have hge := h.end_ge
  have hle := h.blocks_le
  have hthree := h.three_le
  have hfour : 2 ^ 2 ≤ 2 ^ (s.maxTreeLevel - 1) := Nat.pow_le_pow_right (by decide) (by omega)
  unfold Allocator.front
  unfold blockSize at *
  omega

theorem mem_systemSegments {n : ℕ} (hn : n < 2 ^ s.maxTreeLevel) :
    (⟨0, n⟩ : Node) ∈ systemSegments s ↔ s.front ≤ n :=
  ⟨fun h => h.2.1, fun h => ⟨rfl, h, Nat.le_pred_of_lt hn⟩⟩

theorem systemSegments_leaf : ∀ x ∈ systemSegments s, x.level = 0 := fun _ hx => hx.1

/-- The leaves that are taken when the segments `first .. last` of a fresh arena are
marked. -/
def markedLeaves (s : Allocator) (first last : ℕ) : Set Node :=
  {x | x.level = 0 ∧ x.index < 2 ^ s.maxTreeLevel ∧
    (s.front ≤ x.index ∨ (first ≤ x.index ∧ x.index ≤ last))}

theorem markedLeaves_leaf {first last : ℕ} : ∀ x ∈ markedLeaves s first last, x.level = 0 :=
  fun _ hx => hx.1

theorem markedLeaves_le_root {first last : ℕ} : ∀ x ∈ markedLeaves s first last, x ≤ s.root := by
  rintro ⟨l, n⟩ ⟨rfl, hn, -⟩
  exact leaf_le_root_iff.mpr hn

theorem system_subset_marked {first last : ℕ} :
    systemSegments s ⊆ markedLeaves s first last := by
  rintro ⟨l, n⟩ hx
  obtain ⟨rfl, hfront, hlast⟩ := id hx
  have hroot := leaf_le_root_iff.mp (systemSegments_le_root s _ hx)
  exact ⟨rfl, hroot, Or.inl hfront⟩

/-- Marking segments of the tree. -/
theorem Fresh.exact_inside (hf : Fresh s) {first last : ℕ} (hle : first ≤ last)
    (hlast : last < 2 ^ s.maxTreeLevel) :
    Exact (takeSegments s first last).tree s.root (markedLeaves s first last) := by
  have hroot : (⟨0, last⟩ : Node) ≤ s.root := leaf_le_root_iff.mpr hlast
  have hrange := hf.layout.takeSegments_rangeTaken hle hroot
  have hexact := hf.exact.takeRange (systemSegments_le_root s) systemSegments_leaf hrange
  have hset : systemSegments s ∪ leafRange first last = markedLeaves s first last := by
    ext ⟨l, n⟩
    constructor
    · rintro (hx | ⟨rfl, h₁, h₂⟩)
      · exact system_subset_marked hx
      · exact ⟨rfl, lt_of_le_of_lt h₂ hlast, Or.inr ⟨h₁, h₂⟩⟩
    · rintro ⟨rfl, hn, hfront | hmark⟩
      · exact Or.inl ((mem_systemSegments hn).mpr hfront)
      · exact Or.inr ⟨rfl, hmark⟩
  rwa [hset] at hexact

/-- The leaves after marking up to the segment behind the tree. -/
theorem Fresh.leaf_behind (hf : Fresh s) {first : ℕ} (hle : first ≤ 2 ^ s.maxTreeLevel) {n : ℕ}
    (hn : n < 2 ^ s.maxTreeLevel) :
    (takeSegments s first (2 ^ s.maxTreeLevel)).tree ⟨0, n⟩ =
      if first ≤ n then 1 else s.tree ⟨0, n⟩ := by
  have hroot : (⟨0, n⟩ : Node) ≤ s.root := leaf_le_root_iff.mpr hn
  have hset := hf.layout.tree_areaSet_behind hf.fits (2 ^ s.maxTreeLevel + 1) first (by omega) hle n
    hroot
  have hsame : Same s (areaSetTreeElement s 0 first (2 ^ s.maxTreeLevel) 1) :=
    areaSetTreeElementLoop_same _ _ _ _ s _
  have hbuddify := (hf.layout.same hsame).areafullBuddify_behind (hsame.fits hf.fits)
    (s.maxTreeLevel + 2) 0 first (by rw [hsame.maxTreeLevel_eq]; omega) (Nat.zero_le _)
    (by rw [hsame.maxTreeLevel_eq, Nat.sub_zero]; exact hle)
  rw [hsame.maxTreeLevel_eq, hsame.root_eq, Nat.sub_zero] at hbuddify
  rw [takeSegments, areafullBuddify, hsame.maxTreeLevel_eq, hbuddify.1 _ hroot le_rfl,
    areaSetTreeElement, hset]

/-- Marking from one of the first two segments to the one behind the tree. -/
theorem Fresh.exact_behind (hf : Fresh s) {first : ℕ} (hfirst : first ≤ 1) :
    Exact (takeSegments s first (2 ^ s.maxTreeLevel)).tree s.root
      (markedLeaves s first (2 ^ s.maxTreeLevel)) := by
  have hpos := Nat.two_pow_pos s.maxTreeLevel
  have hsame : Same s (areaSetTreeElement s 0 first (2 ^ s.maxTreeLevel) 1) :=
    areaSetTreeElementLoop_same _ _ _ _ s _
  have hbuddify := (hf.layout.same hsame).areafullBuddify_behind (hsame.fits hf.fits)
    (s.maxTreeLevel + 2) 0 first (by rw [hsame.maxTreeLevel_eq]; omega) (Nat.zero_le _)
    (by rw [hsame.maxTreeLevel_eq, Nat.sub_zero]; omega)
  rw [hsame.maxTreeLevel_eq, hsame.root_eq, Nat.sub_zero] at hbuddify
  refine exact_of_leaf markedLeaves_leaf ?_ ?_ ?_
  · rintro n ⟨-, hn, hmark⟩
    rw [hf.leaf_behind (by omega) hn]
    split
    · rfl
    · have hfront : s.front ≤ n := hmark.resolve_right (by omega)
      have hmem := (mem_systemSegments hn).mpr hfront
      rw [hf.exact.full _ hmem, ones_zero]
  · intro n hroot hout
    have hn := leaf_le_root_iff.mp hroot
    have hnot : ¬ (s.front ≤ n ∨ (first ≤ n ∧ n ≤ 2 ^ s.maxTreeLevel)) :=
      fun hmark => hout ⟨rfl, hn, hmark⟩
    rw [hf.leaf_behind (by omega) hn, if_neg (by omega),
      hf.exact.leaf_eq_zero_iff systemSegments_leaf hroot, mem_systemSegments hn]
    omega
  · intro l n hroot
    rw [takeSegments, areafullBuddify, hsame.maxTreeLevel_eq]
    exact hbuddify.2 (by omega) l n (Nat.zero_le _) hroot

/-- Marking the segment behind the tree, from the third segment or later, sets a bit of
the first node of level `1`. -/
theorem Fresh.testBit_behind (hf : Fresh s) {first : ℕ} (hfirst : 2 ≤ first)
    (hle : first ≤ 2 ^ s.maxTreeLevel) :
    ((takeSegments s first (2 ^ s.maxTreeLevel)).tree ⟨1, 0⟩).testBit 1 = true := by
  have hthree := hf.layout.three_le
  have hmax := hf.layout.le_twentyTwo
  have hpos := Nat.two_pow_pos (s.maxTreeLevel - 1)
  have hdouble : 2 ^ s.maxTreeLevel = 2 * 2 ^ (s.maxTreeLevel - 1) := by
    rw [← pow_succ']
    congr 1
    omega
  have hpow : 2 ^ s.maxTreeLevel ≤ 2 ^ 22 := Nat.pow_le_pow_right (by decide) hmax
  have hnode : (⟨1, 0⟩ : Node) ≤ s.root := le_root_iff.mpr ⟨by simp only; omega, hpos⟩
  obtain ⟨s₀, hsame₀, hlast⟩ := areaSet_last (2 ^ s.maxTreeLevel) (2 ^ s.maxTreeLevel + 1) s first
    (by omega) hle
  have hset : (areaSetTreeElement s 0 first (2 ^ s.maxTreeLevel) 1).tree ⟨1, 0⟩ =
      (setTreeElement s₀ 0 (2 ^ s.maxTreeLevel) 1).tree ⟨1, 0⟩ := by
    rw [areaSetTreeElement, hlast]
  have hsame : Same s (areaSetTreeElement s 0 first (2 ^ s.maxTreeLevel) 1) :=
    areaSetTreeElementLoop_same _ _ _ _ s _
  -- the element behind the leaves is the first bit of the node
  have hbit : ((setTreeElement s₀ 0 (2 ^ s.maxTreeLevel) 1).tree ⟨1, 0⟩).testBit 1 = true := by
    have hsame₁ := hsame₀.trans (setTreeElement_same s₀ 0 (2 ^ s.maxTreeLevel) 1)
    have hend := hf.layout.element_end_le hnode
    have hadj := hf.adjacent
    have hfits := hf.fits
    have hstart₀ : elementBit s₀ 0 (2 ^ s.maxTreeLevel) = elementBit s 0 (2 ^ s.maxTreeLevel) := by
      obtain ⟨m, hm⟩ := hsame₀
      rw [hm]
      rfl
    have hstart₁ : elementBit (setTreeElement s₀ 0 (2 ^ s.maxTreeLevel) 1) 1 0 =
        elementBit s 1 0 := by
      obtain ⟨m, hm⟩ := hsame₁
      rw [hm]
      rfl
    have hbound : elementBit s 1 0 + 2 ≤ 2 ^ 35 := by
      simp only at hend
      omega
    have hstored : bit (setTreeElement s₀ 0 (2 ^ s.maxTreeLevel) 1).mem (elementBit s 1 0) =
        true := by
      rw [bit_setTreeElement s₀ (by decide) (by omega) (by rw [hstart₀, hadj]; omega) (by omega),
        hstart₀, hadj, if_pos ⟨le_rfl, by omega⟩, Nat.sub_self]
      decide
    rw [Allocator.tree, testBit_getTreeElement _ (by decide) (by decide), hstart₁]
    dsimp only
    rw [Nat.sub_self, Nat.add_zero, hstored]
    decide
  have hlayout := hf.layout.same hsame
  have hfits := hsame.fits hf.fits
  have hmax' := hsame.maxTreeLevel_eq
  -- no later write reaches the node
  have hhalf : 2 ^ s.maxTreeLevel / 2 = 2 ^ (s.maxTreeLevel - 1) := by omega
  rw [takeSegments, areafullBuddify, hmax', areafullBuddifyLoop]
  rw [hset.symm] at hbit
  generalize areaSetTreeElement s 0 first (2 ^ s.maxTreeLevel) 1 = s₁ at *
  have hsame₂ : Same s₁ (levelBuddify s₁ (0 + 1) (first / 2) (2 ^ s.maxTreeLevel / 2)) :=
    levelBuddifyLoop_same _ _ _ s₁ _
  have hlevel := hlayout.tree_levelBuddify_behind hfits (l := 0) (by rw [hmax']; omega)
    (2 ^ (s.maxTreeLevel - 1) + 1) (first / 2) (by rw [hmax', Nat.zero_add]; omega)
    (by rw [hmax', Nat.zero_add]; omega) ⟨1, 0⟩ (hsame.root_eq ▸ hnode) le_rfl
  rw [hmax', if_neg (fun hin => absurd hin.2 (by simp only; omega)), Nat.zero_add, ← hhalf,
    ← levelBuddify] at hlevel
  generalize levelBuddify s₁ (0 + 1) (first / 2) (2 ^ s.maxTreeLevel / 2) = s₂ at *
  have hmax₂ : s₂.maxTreeLevel = s.maxTreeLevel := hsame₂.maxTreeLevel_eq.trans hmax'
  have hrest := (hlayout.same hsame₂).areafullBuddify_behind (hsame₂.fits hfits)
    (s.maxTreeLevel + 1) 1 (first / 2) (by omega) (by omega) (by rw [hmax₂]; omega)
  rw [hmax₂, ← hhalf] at hrest
  rw [hmax₂, if_pos (by omega), hrest.1 ⟨1, 0⟩ ?_ le_rfl, hlevel, hbit]
  rw [hsame₂.root_eq, hsame.root_eq]
  exact hnode

end

end Neos.Kmalloc
