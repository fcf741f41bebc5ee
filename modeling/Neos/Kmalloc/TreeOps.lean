import Neos.Kmalloc.ControlStructure

/-!
# Tree updates of the allocator

Each routine of the allocator that rebuilds masks is described here once, as an
update of the abstract tree: `buddify` joins one node, `fullBuddify` rebuilds
the ancestors of one node, and `areafullBuddify` rebuilds everything above a
range of segments.  Later modules use these descriptions only.
-/

namespace Neos.Kmalloc

open BitMemory BuddyTree

/-! ## The arena is unchanged -/

theorem buddify_same (s : Allocator) (level node : ℕ) : Same s (buddify s level node) :=
  setTreeElement_same s _ _ _

theorem fullBuddifyLoop_same :
    ∀ (fuel : ℕ) (s : Allocator) (level node : ℕ), Same s (fullBuddifyLoop fuel s level node)
  | 0, s, _, _ => Same.refl s
  | fuel + 1, s, level, node => by
      rw [fullBuddifyLoop]
      split
      · exact (buddify_same s _ _).trans (fullBuddifyLoop_same fuel _ _ _)
      · exact buddify_same s _ _

theorem fullBuddify_same (s : Allocator) (level node : ℕ) : Same s (fullBuddify s level node) :=
  fullBuddifyLoop_same _ s _ _

theorem levelBuddifyLoop_same (level endNode : ℕ) :
    ∀ (fuel : ℕ) (s : Allocator) (node : ℕ),
      Same s (levelBuddifyLoop level endNode fuel s node)
  | 0, s, _ => Same.refl s
  | fuel + 1, s, node => by
      rw [levelBuddifyLoop]
      split
      · exact (buddify_same s _ _).trans (levelBuddifyLoop_same level endNode fuel _ _)
      · exact buddify_same s _ _

theorem areafullBuddifyLoop_same :
    ∀ (fuel : ℕ) (s : Allocator) (level startNode endNode : ℕ),
      Same s (areafullBuddifyLoop fuel s level startNode endNode)
  | 0, s, _, _, _ => Same.refl s
  | fuel + 1, s, level, startNode, endNode => by
      have hlevel : Same s (levelBuddify s (level + 1) (startNode / 2) (endNode / 2)) :=
        levelBuddifyLoop_same _ _ _ s _
      rw [areafullBuddifyLoop]
      split
      · exact hlevel.trans (areafullBuddifyLoop_same fuel _ _ _ _)
      · exact hlevel

theorem areaSetTreeElementLoop_same (level value endNode : ℕ) :
    ∀ (fuel : ℕ) (s : Allocator) (node : ℕ),
      Same s (areaSetTreeElementLoop level value endNode fuel s node)
  | 0, s, _ => Same.refl s
  | fuel + 1, s, node => by
      rw [areaSetTreeElementLoop]
      split
      · exact (setTreeElement_same s _ _ _).trans
          (areaSetTreeElementLoop_same level value endNode fuel _ _)
      · exact setTreeElement_same s _ _ _

/-- Marking a range of segments, as `initializetree` and `kmres` do. -/
def takeSegments (s : Allocator) (first last : ℕ) : Allocator :=
  areafullBuddify (areaSetTreeElement s 0 first last 1) 0 first last

theorem takeSegments_same (s : Allocator) (first last : ℕ) : Same s (takeSegments s first last) :=
  (areaSetTreeElementLoop_same _ _ _ _ s _).trans (areafullBuddifyLoop_same _ _ _ _ _)

/-! ## One node -/

theorem join_lt {l a b : ℕ} (ha : a < 2 ^ (l + 1)) (hb : b < 2 ^ (l + 1)) :
    join l a b < 2 ^ (l + 1 + 1) := by
  refine Nat.lt_pow_two_of_testBit _ fun i hi => ?_
  have hpow : 2 ^ (l + 1) ≤ 2 ^ i := Nat.pow_le_pow_right (by decide) (by omega)
  have hpow' : 2 ^ (l + 1) ≤ 2 ^ (l + (i - 1 - l)) :=
    Nat.pow_le_pow_right (by decide) (by omega)
  rw [join, Nat.testBit_or, Nat.testBit_shiftLeft, Nat.testBit_shiftLeft, Nat.testBit_and,
    Nat.testBit_or, Nat.testBit_shiftRight, Nat.testBit_shiftRight,
    Nat.testBit_lt_two_pow (ha.trans_le hpow), Nat.testBit_lt_two_pow (ha.trans_le hpow'),
    Nat.testBit_lt_two_pow (hb.trans_le hpow')]
  simp

section Ops

variable {s : Allocator}

/-- `buddify` joins the children of one node. -/
theorem Layout.tree_buddify (h : Layout s) {l n : ℕ} (hn : (⟨l + 1, n⟩ : Node) ≤ s.root)
    {z : Node} (hz : z ≤ s.root) :
    (buddify s (l + 1) n).tree z =
      if z = ⟨l + 1, n⟩ then join l (s.tree (Node.left l n)) (s.tree (Node.right l n))
      else s.tree z := by
  have hleft := h.tree_bounded _ ((Node.left_lt l n).le.trans hn)
  have hright := h.tree_bounded _ ((Node.right_lt l n).le.trans hn)
  have hlt := join_lt hleft hright
  have hset := h.tree_set hn
    (join l (s.tree (Node.left l n)) (s.tree (Node.right l n))) hz
  simp only at hset
  rw [Nat.mod_eq_of_lt hlt] at hset
  exact hset

theorem Layout.tree_buddify_beyond (h : Layout s) {z : Node} (hz : z ≤ s.root) :
    (buddify s (s.maxTreeLevel + 1) 0).tree z = s.tree z :=
  h.tree_set_beyond _ hz

/-! ## The ancestors of one node -/

/-- The parent of a node. -/
abbrev parent (x : Node) : Node := ⟨x.level + 1, x.index / 2⟩

theorem lt_parent (x : Node) : x < parent x := by
  rw [parent, Node.lt_iff_le_child]
  rcases Nat.mod_two_eq_zero_or_one x.index with h | h
  · left
    exact (Node.ext rfl (by simp; omega) : x = Node.left x.level (x.index / 2)).le
  · right
    exact (Node.ext rfl (by simp; omega) : x = Node.right x.level (x.index / 2)).le

theorem parent_le_of_lt {x z : Node} (h : x < z) : parent x ≤ z := by
  have hl := Node.level_lt h
  refine ⟨hl, ?_⟩
  rw [← h.le.2, parent]
  simp only
  rw [Nat.div_div_eq_div_mul, ← pow_succ']
  congr 2
  omega

theorem parent_le_root {x : Node} (hx : x ≤ s.root) (hlt : x.level < s.maxTreeLevel) :
    parent x ≤ s.root := by
  refine parent_le_of_lt (lt_of_le_of_ne hx ?_)
  rintro rfl
  exact lt_irrefl _ hlt

/-- What rebuilding the ancestors of `y` does to a tree. -/
structure Rebuilt (t t' : Node → ℕ) (root y : Node) : Prop where
  other : ∀ z ≤ root, ¬ y < z → t' z = t z
  joined : ∀ l n, y < ⟨l + 1, n⟩ → (⟨l + 1, n⟩ : Node) ≤ root → IsJoin t' l n

theorem Layout.rebuilt_of_root (h : Layout s) :
    Rebuilt s.tree (buddify s (s.maxTreeLevel + 1) 0).tree s.root s.root where
  other _ hz _ := h.tree_buddify_beyond hz
  joined _ _ hlt hle := absurd hle (not_le_of_gt hlt)

/-- Joining the parent and then rebuilding above it rebuilds above the node. -/
theorem Rebuilt.step {t t₁ t' : Node → ℕ} {root y : Node} (hp : parent y ≤ root)
    (hother : ∀ z ≤ root, z ≠ parent y → t₁ z = t z)
    (hjoin : IsJoin t₁ y.level (y.index / 2)) (hr : Rebuilt t₁ t' root (parent y)) :
    Rebuilt t t' root y where
  other z hz hyz := by
    have hpz : ¬ parent y < z := fun hlt => hyz ((lt_parent y).trans hlt)
    have hne : z ≠ parent y := by
      rintro rfl
      exact hyz (lt_parent y)
    rw [hr.other z hz hpz, hother z hz hne]
  joined l n hlt hroot := by
    rcases eq_or_lt_of_le (parent_le_of_lt hlt) with heq | hgt
    · have hl : y.level = l := by simpa [parent] using congrArg Node.level heq
      have hn : y.index / 2 = n := by simpa [parent] using congrArg Node.index heq
      subst hl hn
      have hleft := Node.left_lt y.level (y.index / 2)
      have hright := Node.right_lt y.level (y.index / 2)
      have hself : t' ⟨y.level + 1, y.index / 2⟩ = t₁ ⟨y.level + 1, y.index / 2⟩ :=
        hr.other _ hp (lt_irrefl _)
      rw [IsJoin, hself, hr.other _ (hleft.le.trans hp) (not_lt_of_ge hleft.le),
        hr.other _ (hright.le.trans hp) (not_lt_of_ge hright.le)]
      exact hjoin
    · exact hr.joined l n hgt hroot

theorem Layout.fullBuddifyLoop_rebuilt (h : Layout s) :
    ∀ (fuel : ℕ) (y : Node), y ≤ s.root → s.maxTreeLevel < fuel + y.level →
      Rebuilt s.tree (fullBuddifyLoop fuel s y.level y.index).tree s.root y := by
  intro fuel
  induction fuel generalizing s with
  | zero =>
      intro y hy hfuel
      have := (le_root_iff.mp hy).1
      omega
  | succ fuel ih =>
      intro y hy hfuel
      have hsame := buddify_same s (y.level + 1) (y.index / 2)
      have hmax : (buddify s (y.level + 1) (y.index / 2)).maxTreeLevel = s.maxTreeLevel := rfl
      rw [fullBuddifyLoop]
      rcases Nat.lt_or_ge y.level s.maxTreeLevel with hlt | hge
      · have hp := parent_le_root hy hlt
        have hother : ∀ z ≤ s.root, z ≠ parent y →
            (buddify s (y.level + 1) (y.index / 2)).tree z = s.tree z := by
          intro z hz hne
          rw [h.tree_buddify hp hz, if_neg hne]
        have hjoin : IsJoin (buddify s (y.level + 1) (y.index / 2)).tree y.level
            (y.index / 2) := by
          have hleft := Node.left_lt y.level (y.index / 2)
          have hright := Node.right_lt y.level (y.index / 2)
          rw [IsJoin, h.tree_buddify hp hp, h.tree_buddify hp (hleft.le.trans hp),
            h.tree_buddify hp (hright.le.trans hp), if_pos rfl, if_neg hleft.ne,
            if_neg hright.ne]
        rw [hmax]
        split
        · refine Rebuilt.step hp hother hjoin ?_
          exact ih (h.same hsame) (parent y) hp (by simp only [hmax]; omega)
        · next htop =>
            have hpr : parent y = s.root :=
              Node.eq_of_le_of_level le_rfl hp (by
                simp only [Allocator.root]
                omega)
            refine Rebuilt.step hp hother hjoin ⟨fun z _ _ => rfl, fun l n hl hr => ?_⟩
            exact absurd hr (not_le_of_gt (hpr ▸ hl))
      · have hyr : y = s.root :=
          Node.eq_of_le_of_level le_rfl hy (le_antisymm (le_root_iff.mp hy).1 hge)
        subst hyr
        simp only [Allocator.root, Nat.zero_div] at hmax ⊢
        rw [if_neg (by omega)]
        exact h.rebuilt_of_root

/-- `fullBuddify` rebuilds exactly the ancestors of a node. -/
theorem Layout.fullBuddify_rebuilt (h : Layout s) {y : Node} (hy : y ≤ s.root) :
    Rebuilt s.tree (fullBuddify s y.level y.index).tree s.root y :=
  h.fullBuddifyLoop_rebuilt _ y hy (by omega)

/-- Setting a node and rebuilding its ancestors. -/
theorem Layout.set_fullBuddify (h : Layout s) {y : Node} (hy : y ≤ s.root) (v : ℕ) :
    Updated s.tree
      (fullBuddify (setTreeElement s y.level y.index v) y.level y.index).tree
      s.root y (v % 2 ^ (y.level + 1)) := by
  have hsame := setTreeElement_same s y.level y.index v
  have hr := (h.same hsame).fullBuddify_rebuilt (y := y) (hsame.root_eq ▸ hy)
  rw [hsame.root_eq] at hr
  constructor
  · rw [hr.other y hy (lt_irrefl y), h.tree_set hy v hy, if_pos rfl]
  · intro z hz hyz
    rw [hr.other z hz fun hlt => hyz hlt.le, h.tree_set hy v hz, if_neg]
    rintro rfl
    exact hyz le_rfl
  · exact hr.joined

theorem reserve_same (s : Allocator) (level node : ℕ) : Same s (reserve s level node) :=
  (setTreeElement_same s _ _ _).trans (fullBuddify_same _ _ _)

/-- Reserving a node. -/
theorem Layout.reserve_updated (h : Layout s) {y : Node} (hy : y ≤ s.root) :
    Updated s.tree (reserve s y.level y.index).tree s.root y (ones y.level) := by
  have hu := h.set_fullBuddify hy (2 ^ 32 - 1)
  have hpow : (2 ^ 32 - 1) % 2 ^ (y.level + 1) = ones y.level := by
    have hlevel := h.level_le hy
    refine Nat.eq_of_testBit_eq fun i => ?_
    rw [Nat.testBit_mod_two_pow, Nat.testBit_two_pow_sub_one, testBit_ones, ← Bool.decide_and]
    congr 1
    rw [eq_iff_iff]
    omega
  rw [hpow] at hu
  exact hu

theorem kfree_same (s : Allocator) (pointer : ℕ) : Same s (kfree s pointer) :=
  (setTreeElement_same s _ _ _).trans (fullBuddify_same _ _ _)

/-- Freeing clears the leaf of the segment and rebuilds its ancestors. -/
theorem Layout.kfree_updated (h : Layout s) {pointer : ℕ}
    (hq : (⟨0, segmentOf s pointer⟩ : Node) ≤ s.root) :
    Updated s.tree (kfree s pointer).tree s.root ⟨0, segmentOf s pointer⟩ 0 := by
  have hu := h.set_fullBuddify hq 0
  rw [Nat.zero_mod] at hu
  exact hu

/-! ## Everything above a range of segments -/

/-- The nodes of one level above the nodes `a .. b` of level `base`. -/
def InRange (base a b : ℕ) (z : Node) : Prop :=
  a / 2 ^ (z.level - base) ≤ z.index ∧ z.index ≤ b / 2 ^ (z.level - base)

/-- What rebuilding above the nodes `a .. b` of level `base` does to a tree. -/
structure RangeRebuilt (t t' : Node → ℕ) (root : Node) (base a b : ℕ) : Prop where
  other : ∀ z ≤ root, (z.level ≤ base ∨ ¬ InRange base a b z) → t' z = t z
  joined : ∀ l n, base ≤ l → (⟨l + 1, n⟩ : Node) ≤ root → InRange base a b ⟨l + 1, n⟩ →
    IsJoin t' l n

theorem inRange_succ {base a b : ℕ} {z : Node} (hz : base < z.level) :
    InRange (base + 1) (a / 2) (b / 2) z ↔ InRange base a b z := by
  have he : z.level - base = z.level - (base + 1) + 1 := by omega
  rw [InRange, InRange, he, pow_succ', ← Nat.div_div_eq_div_mul, ← Nat.div_div_eq_div_mul]

/-- Joining one level of a range and then rebuilding above it. -/
theorem RangeRebuilt.step {t u t' : Node → ℕ} {root : Node} {base a b : ℕ}
    (hother : ∀ z ≤ root, ¬ (z.level = base + 1 ∧ InRange base a b z) → u z = t z)
    (hjoin : ∀ n, (⟨base + 1, n⟩ : Node) ≤ root → InRange base a b ⟨base + 1, n⟩ →
      IsJoin u base n)
    (hr : RangeRebuilt u t' root (base + 1) (a / 2) (b / 2)) :
    RangeRebuilt t t' root base a b where
  other z hz hout := by
    have h₁ : z.level ≤ base + 1 ∨ ¬ InRange (base + 1) (a / 2) (b / 2) z := by
      rcases Nat.lt_or_ge (base + 1) z.level with hlt | hle
      · right
        rw [inRange_succ (by omega)]
        exact hout.resolve_left (by omega)
      · exact Or.inl hle
    rw [hr.other z hz h₁, hother z hz]
    rintro ⟨hl, hin⟩
    exact hout.elim (fun hle => by omega) fun hno => hno hin
  joined l n hl hn hin := by
    rcases eq_or_lt_of_le hl with heq | hlt
    · subst heq
      have hleft := (Node.left_lt base n).le.trans hn
      have hright := (Node.right_lt base n).le.trans hn
      rw [IsJoin, hr.other _ hn (Or.inl le_rfl), hr.other _ hleft (Or.inl (by simp)),
        hr.other _ hright (Or.inl (by simp))]
      exact hjoin n hn hin
    · refine hr.joined l n hlt hn ?_
      rw [inRange_succ]
      · exact hin
      · show base < l + 1
        omega

theorem Layout.tree_levelBuddifyLoop (h : Layout s) {l endNode : ℕ} :
    ∀ (fuel node : ℕ), endNode < fuel + node → node ≤ endNode →
      (⟨l + 1, endNode⟩ : Node) ≤ s.root → ∀ z ≤ s.root,
      (levelBuddifyLoop (l + 1) endNode fuel s node).tree z =
        if z.level = l + 1 ∧ node ≤ z.index ∧ z.index ≤ endNode then
          join l (s.tree (Node.left l z.index)) (s.tree (Node.right l z.index))
        else s.tree z := by
  intro fuel
  induction fuel generalizing s with
  | zero =>
      intro node hfuel hle
      omega
  | succ fuel ih =>
      intro node hfuel hle hend z hz
      have hnode : (⟨l + 1, node⟩ : Node) ≤ s.root := by
        have := le_root_iff.mp hend
        exact le_root_iff.mpr ⟨this.1, by simp only at this ⊢; omega⟩
      rw [levelBuddifyLoop]
      split
      · next hmore =>
          have hsame := buddify_same s (l + 1) node
          rw [ih (h.same hsame) (node + 1) (by omega) hmore (hsame.root_eq ▸ hend) z
            (hsame.root_eq ▸ hz)]
          split
          · next hin =>
              have hzn : (⟨l + 1, z.index⟩ : Node) ≤ s.root := by
                rw [← hin.1]
                exact hz
              have hleft := (Node.left_lt l z.index).le.trans hzn
              have hright := (Node.right_lt l z.index).le.trans hzn
              rw [h.tree_buddify hnode hleft, h.tree_buddify hnode hright,
                if_neg (by simp), if_neg (by simp), if_pos ⟨hin.1, by omega, hin.2.2⟩]
          · next hout =>
              rw [h.tree_buddify hnode hz]
              by_cases heq : z = ⟨l + 1, node⟩
              · subst heq
                simp [hle]
              · rw [if_neg heq, if_neg]
                rintro ⟨hl, hn₁, hn₂⟩
                rcases eq_or_lt_of_le hn₁ with he | hlt
                · exact heq (Node.ext hl he.symm)
                · exact hout ⟨hl, hlt, hn₂⟩
      · next hlast =>
          rw [h.tree_buddify hnode hz]
          have hiff : z = ⟨l + 1, node⟩ ↔
              z.level = l + 1 ∧ node ≤ z.index ∧ z.index ≤ endNode := by
            rw [Node.ext_iff]
            simp only
            omega
          by_cases heq : z = ⟨l + 1, node⟩
          · rw [if_pos heq, if_pos (hiff.mp heq), heq]
          · rw [if_neg heq, if_neg fun hc => heq (hiff.mpr hc)]

theorem div_lt_two_pow {a l max : ℕ} (ha : a < 2 ^ (max - l)) (hl : l < max) :
    a / 2 < 2 ^ (max - (l + 1)) := by
  have he : max - l = max - (l + 1) + 1 := by omega
  rw [he, pow_succ] at ha
  omega

theorem Layout.areafullBuddifyLoop_rebuilt (h : Layout s) :
    ∀ (fuel base a b : ℕ), s.maxTreeLevel < fuel + base → a ≤ b →
      (⟨base, b⟩ : Node) ≤ s.root →
      RangeRebuilt s.tree (areafullBuddifyLoop fuel s base a b).tree s.root base a b := by
  intro fuel
  induction fuel generalizing s with
  | zero =>
      intro base a b hfuel _ hb
      have := (le_root_iff.mp hb).1
      simp only at this
      omega
  | succ fuel ih =>
      intro base a b hfuel hab hb
      have hbr := le_root_iff.mp hb
      simp only at hbr
      have hsame : Same s (levelBuddify s (base + 1) (a / 2) (b / 2)) :=
        levelBuddifyLoop_same _ _ _ s _
      have hmax : (levelBuddify s (base + 1) (a / 2) (b / 2)).maxTreeLevel =
          s.maxTreeLevel := congrArg Node.level hsame.root_eq
      rw [areafullBuddifyLoop, hmax]
      split
      · next hlt =>
          have hb' : (⟨base + 1, b / 2⟩ : Node) ≤ s.root :=
            le_root_iff.mpr ⟨hlt, div_lt_two_pow hbr.2 hlt⟩
          have hab' : a / 2 ≤ b / 2 := Nat.div_le_div_right hab
          have htree := h.tree_levelBuddifyLoop (b / 2 + 1) (a / 2) (by omega) hab' hb'
          refine RangeRebuilt.step ?_ ?_ ?_ (u :=
            (levelBuddify s (base + 1) (a / 2) (b / 2)).tree)
          · intro z hz hout
            rw [levelBuddify, htree z hz, if_neg]
            rintro ⟨hl, hin⟩
            exact hout ⟨hl, by simpa [InRange, hl] using hin⟩
          · intro n hn hin
            have hleft := Node.left_lt base n
            have hright := Node.right_lt base n
            have hin' : a / 2 ≤ n ∧ n ≤ b / 2 := by simpa [InRange] using hin
            rw [IsJoin, levelBuddify, htree _ hn, htree _ (hleft.le.trans hn),
              htree _ (hright.le.trans hn), if_pos ⟨rfl, hin'⟩, if_neg (by simp),
              if_neg (by simp)]
          · have := ih (h.same hsame) (base + 1) (a / 2) (b / 2) (by rw [hmax]; omega) hab'
              (hsame.root_eq ▸ hb')
            rwa [hsame.root_eq] at this
      · next hge =>
          -- the step above the root
          have hbase : base = s.maxTreeLevel := by omega
          have hb0 : b = 0 := by
            have := hbr.2
            rw [hbase, Nat.sub_self, pow_zero] at this
            omega
          have ha0 : a = 0 := by omega
          subst hb0 ha0
          have hbeyond : ∀ z ≤ s.root,
              (levelBuddify s (base + 1) (0 / 2) (0 / 2)).tree z = s.tree z := by
            intro z hz
            rw [hbase]
            exact h.tree_buddify_beyond hz
          refine ⟨fun z hz _ => hbeyond z hz, fun l n hl hn _ => ?_⟩
          have := (le_root_iff.mp hn).1
          simp only at this
          omega

theorem Layout.tree_areaSetTreeElementLoop (h : Layout s) {endNode v : ℕ} :
    ∀ (fuel node : ℕ), endNode < fuel + node → node ≤ endNode →
      (⟨0, endNode⟩ : Node) ≤ s.root → ∀ z ≤ s.root,
      (areaSetTreeElementLoop 0 v endNode fuel s node).tree z =
        if z.level = 0 ∧ node ≤ z.index ∧ z.index ≤ endNode then v % 2 else s.tree z := by
  intro fuel
  induction fuel generalizing s with
  | zero =>
      intro node hfuel hle
      omega
  | succ fuel ih =>
      intro node hfuel hle hend z hz
      have hnode : (⟨0, node⟩ : Node) ≤ s.root := by
        have := le_root_iff.mp hend
        exact le_root_iff.mpr ⟨this.1, by simp only at this ⊢; omega⟩
      have hset := h.tree_set hnode v hz
      simp only [Nat.zero_add, pow_one] at hset
      rw [areaSetTreeElementLoop]
      split
      · next hmore =>
          have hsame := setTreeElement_same s 0 node v
          rw [ih (h.same hsame) (node + 1) (by omega) hmore (hsame.root_eq ▸ hend) z
            (hsame.root_eq ▸ hz), hset]
          by_cases heq : z = ⟨0, node⟩
          · subst heq
            simp [hle]
          · rw [if_neg heq]
            congr 1
            rw [eq_iff_iff]
            constructor
            · rintro ⟨h₀, h₁, h₂⟩
              exact ⟨h₀, by omega, h₂⟩
            · rintro ⟨h₀, h₁, h₂⟩
              refine ⟨h₀, ?_, h₂⟩
              rcases eq_or_lt_of_le h₁ with he | hlt
              · exact absurd (Node.ext h₀ he.symm) heq
              · exact hlt
      · next hlast =>
          rw [hset]
          congr 1
          rw [eq_iff_iff, Node.ext_iff]
          simp only
          omega

theorem mem_leafRange_le_iff {a b : ℕ} {z : Node} :
    (∃ y ∈ leafRange a b, y ≤ z) ↔ a ≤ b ∧ InRange 0 a b z := by
  have hp := Nat.two_pow_pos z.level
  rw [InRange, Nat.sub_zero]
  constructor
  · rintro ⟨y, ⟨hy, ha, hb⟩, hle⟩
    have he : y.index / 2 ^ z.level = z.index := by
      have := hle.2
      rwa [hy, Nat.sub_zero] at this
    rw [← he]
    exact ⟨ha.trans hb, Nat.div_le_div_right ha, Nat.div_le_div_right hb⟩
  · rintro ⟨hab, h₁, h₂⟩
    by_cases hin : z.index * 2 ^ z.level ≤ a
    · refine ⟨⟨0, a⟩, ⟨rfl, le_rfl, hab⟩, Nat.zero_le _, ?_⟩
      simp only [Nat.sub_zero]
      exact le_antisymm h₁ ((Nat.le_div_iff_mul_le hp).mpr hin)
    · refine ⟨⟨0, z.index * 2 ^ z.level⟩, ⟨rfl, by simp only; omega, ?_⟩, Nat.zero_le _, ?_⟩
      · exact (Nat.le_div_iff_mul_le hp).mp h₂
      · simp [Nat.mul_div_cancel _ hp]

/-- Marking a range of segments takes exactly their leaves. -/
theorem Layout.takeSegments_rangeTaken (h : Layout s) {a b : ℕ} (hab : a ≤ b)
    (hb : (⟨0, b⟩ : Node) ≤ s.root) :
    RangeTaken s.tree (takeSegments s a b).tree s.root a b := by
  set s₁ := areaSetTreeElement s 0 a b 1 with hs₁
  have hsame : Same s s₁ := areaSetTreeElementLoop_same _ _ _ _ s _
  have hset : ∀ z ≤ s.root, s₁.tree z =
      if z.level = 0 ∧ a ≤ z.index ∧ z.index ≤ b then 1 else s.tree z :=
    h.tree_areaSetTreeElementLoop (b + 1) a (by omega) hab hb
  have hr := (h.same hsame).areafullBuddifyLoop_rebuilt (s₁.maxTreeLevel + 2) 0 a b
    (by omega) hab (hsame.root_eq ▸ hb)
  rw [hsame.root_eq] at hr
  have hroot : ∀ y ∈ leafRange a b, y ≤ s.root := by
    rintro y ⟨hy₀, -, hy⟩
    have hbr := le_root_iff.mp hb
    refine le_root_iff.mpr ⟨by omega, ?_⟩
    rw [hy₀]
    simp only at hbr
    omega
  constructor
  · rintro y hy
    obtain ⟨h₀, ha, hb⟩ := id hy
    rw [takeSegments, areafullBuddify, hr.other y (hroot y hy) (Or.inl h₀.le),
      hset y (hroot y hy), if_pos ⟨h₀, ha, hb⟩]
    rfl
  · intro z hz hout
    have hnot : ¬ InRange 0 a b z := by
      intro hin
      obtain ⟨y, hy, hle⟩ := mem_leafRange_le_iff.mpr ⟨hab, hin⟩
      exact hout y hy hle
    rw [takeSegments, areafullBuddify, hr.other z hz (Or.inr hnot), hset z hz, if_neg]
    intro hin
    exact hout z hin le_rfl
  · intro y hy l n hlt hn
    exact hr.joined l n (Nat.zero_le _) hn (mem_leafRange_le_iff.mp ⟨y, hy, hlt.le⟩).2

end Ops

end Neos.Kmalloc
