import Mathlib.Data.Nat.Bitwise
import Mathlib.Order.Basic
import Mathlib.Order.Interval.Set.Basic
import Mathlib.Data.Set.BooleanAlgebra
import Mathlib.Data.Set.Insert
import Mathlib.Order.CompletePartialOrder

/-!
# Buddy trees

A complete binary tree over an initial segment of the natural numbers in which
every node carries a mask: bit `k` of the mask of a node says that the node
holds no free aligned run of `2 ^ k` leaves.  The tree is updated by changing
one node and rebuilding its ancestors.

Two invariants are developed.  `Settled` speaks only about a set of taken nodes
and their ancestors and therefore survives arbitrary contents elsewhere in the
tree.  `Exact` determines the whole tree from the set of taken nodes.
-/

namespace Neos.BuddyTree

/-! ## Nodes -/

/-- A node, numbered within its level; level `0` holds the leaves. -/
@[ext] structure Node where
  level : ℕ
  index : ℕ
deriving DecidableEq

namespace Node

/-- `x ≤ y` when `y` is `x` or one of its ancestors. -/
instance : PartialOrder Node where
  le x y := x.level ≤ y.level ∧ x.index / 2 ^ (y.level - x.level) = y.index
  le_refl x := by simp
  le_trans x y z := by
    rintro ⟨h₁, e₁⟩ ⟨h₂, e₂⟩
    refine ⟨h₁.trans h₂, ?_⟩
    rw [← e₂, ← e₁, Nat.div_div_eq_div_mul, ← pow_add]
    congr 2
    omega
  le_antisymm x y := by
    rintro ⟨h₁, e₁⟩ ⟨h₂, e₂⟩
    have hl : x.level = y.level := le_antisymm h₁ h₂
    ext
    · exact hl
    · simpa [hl] using e₁

theorem le_def {x y : Node} :
    x ≤ y ↔ x.level ≤ y.level ∧ x.index / 2 ^ (y.level - x.level) = y.index :=
  Iff.rfl

instance (x y : Node) : Decidable (x ≤ y) := decidable_of_iff _ le_def.symm

theorem level_mono {x y : Node} (h : x ≤ y) : x.level ≤ y.level := h.1

theorem level_lt {x y : Node} (h : x < y) : x.level < y.level := by
  rcases lt_or_eq_of_le (level_mono h.le) with hl | hl
  · exact hl
  · exact absurd (le_antisymm h.le ⟨hl.ge, by simpa [hl] using h.le.2.symm⟩) h.ne

/-- Nodes above a common node are comparable. -/
theorem le_total_of_le {z x y : Node} (hx : z ≤ x) (hy : z ≤ y) : x ≤ y ∨ y ≤ x := by
  wlog h : x.level ≤ y.level generalizing x y
  · exact (this hy hx (le_of_not_ge h)).symm
  · left
    refine ⟨h, ?_⟩
    have hzx := hx.1
    rw [← hx.2, ← hy.2, Nat.div_div_eq_div_mul, ← pow_add]
    congr 2
    omega

theorem eq_of_le_of_level {z x y : Node} (hx : z ≤ x) (hy : z ≤ y)
    (h : x.level = y.level) : x = y := by
  ext
  · exact h
  · rw [← hx.2, ← hy.2, h]

theorem le_of_le_of_level {z x y : Node} (hx : z ≤ x) (hy : z ≤ y)
    (h : x.level ≤ y.level) : x ≤ y := by
  rcases le_total_of_le hx hy with hle | hle
  · exact hle
  · exact (eq_of_le_of_level hx hy (le_antisymm h (level_mono hle))).le

/-- The left child of a node of level `l + 1`. -/
abbrev left (l n : ℕ) : Node := ⟨l, n * 2⟩

/-- The right child of a node of level `l + 1`. -/
abbrev right (l n : ℕ) : Node := ⟨l, n * 2 + 1⟩

theorem left_lt (l n : ℕ) : left l n < ⟨l + 1, n⟩ := by
  refine lt_of_le_of_ne ⟨by simp, by simp⟩ ?_
  intro h
  have := congrArg Node.level h
  simp at this

theorem right_lt (l n : ℕ) : right l n < ⟨l + 1, n⟩ := by
  refine lt_of_le_of_ne ⟨by simp, ?_⟩ ?_
  · simp
    omega
  · intro h
    have := congrArg Node.level h
    simp at this

/-- Below a node of positive level lie exactly its children and their
descendants. -/
theorem lt_iff_le_child {z : Node} {l n : ℕ} :
    z < ⟨l + 1, n⟩ ↔ z ≤ left l n ∨ z ≤ right l n := by
  constructor
  · intro h
    have hl : z.level ≤ l := Nat.lt_succ_iff.mp (level_lt h)
    have he : z.index / 2 ^ (l + 1 - z.level) = n := h.le.2
    have hs : l + 1 - z.level = (l - z.level) + 1 := by omega
    rw [hs, pow_succ, ← Nat.div_div_eq_div_mul] at he
    rcases Nat.mod_two_eq_zero_or_one (z.index / 2 ^ (l - z.level)) with hm | hm
    · exact Or.inl ⟨hl, by simp only; omega⟩
    · exact Or.inr ⟨hl, by simp only; omega⟩
  · rintro (h | h)
    · exact h.trans_lt (left_lt l n)
    · exact h.trans_lt (right_lt l n)

/-- Two nodes are apart when neither lies in the other. -/
def Apart (x y : Node) : Prop := ¬ x ≤ y ∧ ¬ y ≤ x

theorem Apart.symm {x y : Node} (h : Apart x y) : Apart y x := ⟨h.2, h.1⟩

/-- What is apart from a node is apart from everything inside it. -/
theorem Apart.mono {x y z : Node} (h : Apart x y) (hz : z ≤ y) : Apart x z := by
  refine ⟨fun hxz => h.1 (hxz.trans hz), fun hzx => ?_⟩
  rcases le_total_of_le hzx hz with hle | hle
  · exact h.1 hle
  · exact h.2 hle

/-- The leaves of a node. -/
def leaves (x : Node) : Set ℕ :=
  Set.Ico (x.index * 2 ^ x.level) ((x.index + 1) * 2 ^ x.level)

theorem mem_leaves {x : Node} {i : ℕ} : i ∈ x.leaves ↔ (⟨0, i⟩ : Node) ≤ x := by
  rw [le_def, leaves, Set.mem_Ico]
  simp only [Nat.zero_le, true_and, Nat.sub_zero]
  have hp := Nat.two_pow_pos x.level
  rw [Nat.div_eq_iff hp, Nat.add_mul, Nat.one_mul]
  omega

theorem leaves_disjoint {x y : Node} (h : Apart x y) : Disjoint x.leaves y.leaves := by
  rw [Set.disjoint_left]
  intro i hx hy
  rw [mem_leaves] at hx hy
  rcases le_total_of_le hx hy with hle | hle
  · exact h.1 hle
  · exact h.2 hle

theorem leaves_mono {x y : Node} (h : x ≤ y) : x.leaves ⊆ y.leaves := by
  intro i hi
  rw [mem_leaves] at hi ⊢
  exact hi.trans h

theorem first_mem_leaves (x : Node) : x.index * 2 ^ x.level ∈ x.leaves := by
  have hp := Nat.two_pow_pos x.level
  refine ⟨le_rfl, ?_⟩
  rw [Nat.add_mul]
  omega

end Node

/-! ## Masks -/

/-- The mask of a node whose children live on level `l` and have masks `a` and
`b`. -/
def join (l a b : ℕ) : ℕ :=
  (b &&& a) ||| (((b >>> l) ||| (a >>> l)) <<< l) <<< 1

/-- The mask of a taken node. -/
def ones (l : ℕ) : ℕ := 2 ^ (l + 1) - 1

theorem testBit_ones {l i : ℕ} : (ones l).testBit i = decide (i ≤ l) := by
  rw [ones, Nat.testBit_two_pow_sub_one, decide_eq_decide]
  exact Nat.lt_succ_iff

theorem ones_ne_zero (l : ℕ) : ones l ≠ 0 := by
  have hpow := Nat.one_lt_two_pow (Nat.succ_ne_zero l)
  rw [ones]
  omega

/-- Short runs are missing from a node when they are missing from both
children. -/
theorem testBit_join_of_le {l a b i : ℕ} (hi : i ≤ l) :
    (join l a b).testBit i = (a.testBit i && b.testBit i) := by
  rw [join, Nat.testBit_or, Nat.testBit_shiftLeft, Nat.testBit_shiftLeft,
    Nat.testBit_and, Bool.and_comm (b.testBit i)]
  rcases Nat.lt_or_ge i 1 with h | h
  · simp [Nat.not_le.mpr h]
  · have hl : ¬ l ≤ i - 1 := by omega
    simp [hl]

/-- The whole node is free exactly when both children are. -/
theorem testBit_join_top {l a b : ℕ} (ha : a < 2 ^ (l + 1)) (hb : b < 2 ^ (l + 1)) :
    (join l a b).testBit (l + 1) = (a.testBit l || b.testBit l) := by
  rw [join, Nat.testBit_or, Nat.testBit_shiftLeft, Nat.testBit_shiftLeft,
    Nat.testBit_and, Nat.testBit_or, Nat.testBit_shiftRight,
    Nat.testBit_shiftRight, Nat.testBit_lt_two_pow ha, Nat.testBit_lt_two_pow hb]
  simp [Bool.or_comm]

@[simp] theorem join_zero (l : ℕ) : join l 0 0 = 0 := by simp [join]

/-- Masks have one bit for each run length up to the size of the node. -/
def Bounded (t : Node → ℕ) (root : Node) : Prop := ∀ z ≤ root, t z < 2 ^ (z.level + 1)

/-! ## The local invariant -/

/-- The mask of a node is the join of the masks of its children. -/
def IsJoin (t : Node → ℕ) (l n : ℕ) : Prop :=
  t ⟨l + 1, n⟩ = join l (t (Node.left l n)) (t (Node.right l n))

/-- The nodes of `R` are taken: their masks are full and the masks of all their
ancestors are up to date. -/
structure Settled (t : Node → ℕ) (root : Node) (R : Set Node) : Prop where
  full : ∀ x ∈ R, t x = ones x.level
  joined : ∀ x ∈ R, ∀ l n, x < ⟨l + 1, n⟩ → (⟨l + 1, n⟩ : Node) ≤ root → IsJoin t l n

/-- `t'` results from `t` by giving `y` the mask `v` and rebuilding the
ancestors of `y`. -/
structure Updated (t t' : Node → ℕ) (root y : Node) (v : ℕ) : Prop where
  self : t' y = v
  other : ∀ z ≤ root, ¬ y ≤ z → t' z = t z
  joined : ∀ l n, y < ⟨l + 1, n⟩ → (⟨l + 1, n⟩ : Node) ≤ root → IsJoin t' l n

section Local

variable {t t' : Node → ℕ} {root y : Node} {v : ℕ} {R : Set Node}

/-- A node below the root that does not contain `y` keeps an up-to-date
mask. -/
theorem Updated.joined_of_not_le (hu : Updated t t' root y v) {l n : ℕ}
    (hroot : (⟨l + 1, n⟩ : Node) ≤ root) (hy : ¬ y ≤ ⟨l + 1, n⟩) (h : IsJoin t l n) :
    IsJoin t' l n := by
  have hl := Node.left_lt l n
  have hr := Node.right_lt l n
  rw [IsJoin, hu.other _ hroot hy,
    hu.other _ (hl.le.trans hroot) (fun hle => hy (hle.trans hl.le)),
    hu.other _ (hr.le.trans hroot) (fun hle => hy (hle.trans hr.le))]
  exact h

/-- An update apart from all taken nodes leaves them taken. -/
theorem Settled.update (h : Settled t root R) (hR : ∀ x ∈ R, x ≤ root)
    (hu : Updated t t' root y v) (hy : ∀ x ∈ R, Node.Apart x y) : Settled t' root R where
  full x hx := by rw [hu.other x (hR x hx) (hy x hx).2, h.full x hx]
  joined x hx l n hlt hroot := by
    by_cases hyz : y ≤ ⟨l + 1, n⟩
    · have hne : y ≠ ⟨l + 1, n⟩ := by
        rintro rfl
        exact (hy x hx).1 hlt.le
      exact hu.joined l n (lt_of_le_of_ne hyz hne) hroot
    · exact hu.joined_of_not_le hroot hyz (h.joined x hx l n hlt hroot)

theorem Settled.mono {S : Set Node} (h : Settled t root R) (hS : S ⊆ R) :
    Settled t root S where
  full x hx := h.full x (hS hx)
  joined x hx := h.joined x (hS hx)

/-- Only the masks below the root matter. -/
theorem Settled.congr (h : Settled t root R) (hR : ∀ x ∈ R, x ≤ root)
    (hsame : ∀ z ≤ root, t' z = t z) : Settled t' root R where
  full x hx := by rw [hsame x (hR x hx), h.full x hx]
  joined x hx l n hlt hroot := by
    rw [IsJoin, hsame _ hroot, hsame _ ((Node.left_lt l n).le.trans hroot),
      hsame _ ((Node.right_lt l n).le.trans hroot)]
    exact h.joined x hx l n hlt hroot

/-- Taking a node apart from all taken ones. -/
theorem Settled.take (h : Settled t root R) (hR : ∀ x ∈ R, x ≤ root)
    (hu : Updated t t' root y (ones y.level)) (hy : ∀ x ∈ R, Node.Apart x y) :
    Settled t' root (insert y R) := by
  have hold := h.update hR hu hy
  constructor
  · rintro x (rfl | hx)
    · exact hu.self
    · exact hold.full x hx
  · rintro x (rfl | hx)
    · exact hu.joined
    · exact hold.joined x hx

/-- Every node that contains a taken node has its top bit set. -/
theorem Settled.testBit_top (h : Settled t root R) (hb : Bounded t root) {x : Node}
    (hx : x ∈ R) : ∀ {z : Node}, x ≤ z → z ≤ root → (t z).testBit z.level = true := by
  have hind : ∀ l n, x ≤ ⟨l, n⟩ → (⟨l, n⟩ : Node) ≤ root →
      (t ⟨l, n⟩).testBit l = true := by
    intro l
    induction l with
    | zero =>
        intro n hxz _
        have hx0 : x.level = 0 := Nat.le_zero.mp (Node.level_mono hxz)
        have hxe : x = ⟨0, n⟩ := Node.eq_of_le_of_level le_rfl hxz hx0
        rw [← hxe, h.full x hx, testBit_ones]
        simp
    | succ l ih =>
        intro n hxz hroot
        rcases eq_or_lt_of_le hxz with heq | hlt
        · rw [← heq, h.full x hx, testBit_ones, heq]
          simp
        · have hleft := Node.left_lt l n
          have hright := Node.right_lt l n
          rw [h.joined x hx l n hlt hroot,
            testBit_join_top (hb (Node.left l n) (hleft.le.trans hroot))
              (hb (Node.right l n) (hright.le.trans hroot))]
          rcases Node.lt_iff_le_child.mp hlt with hc | hc
          · rw [ih _ hc (hleft.le.trans hroot)]
            rfl
          · rw [ih _ hc (hright.le.trans hroot), Bool.or_true]
  intro z hxz hroot
  exact hind z.level z.index hxz hroot

/-- Nothing is taken inside a node whose mask is zero. -/
theorem Settled.not_le_of_eq_zero (h : Settled t root R) (hb : Bounded t root) {x z : Node}
    (hx : x ∈ R) (hroot : z ≤ root) (hz : t z = 0) : ¬ x ≤ z := by
  intro hxz
  have := h.testBit_top hb hx hxz hroot
  simp [hz] at this

/-! ## Searching for a free run -/

/-- Descend `d` levels from a node towards level `k`, preferring the left
child whenever its mask offers a run of `2 ^ k` leaves. -/
def seek (t : Node → ℕ) (k : ℕ) : ℕ → ℕ → ℕ
  | 0, n => n
  | d + 1, n =>
      if (t ⟨k + d, n * 2⟩).testBit k = false then seek t k d (n * 2)
      else seek t k d (n * 2 + 1)

theorem seek_le (t : Node → ℕ) (k : ℕ) :
    ∀ d n, (⟨k, seek t k d n⟩ : Node) ≤ ⟨k + d, n⟩
  | 0, n => le_rfl
  | d + 1, n => by
      rw [seek]
      split
      · exact (seek_le t k d _).trans (Node.left_lt (k + d) n).le
      · exact (seek_le t k d _).trans (Node.right_lt (k + d) n).le

/-- What the search relies on at a node it visits: no taken node contains it,
and either its mask offers a run or nothing inside it is taken. -/
def Promising (t : Node → ℕ) (R : Set Node) (k : ℕ) (z : Node) : Prop :=
  (∀ x ∈ R, ¬ z ≤ x) ∧ ((t z).testBit k = false ∨ ∀ x ∈ R, ¬ x ≤ z)

theorem Settled.promising_of_testBit (h : Settled t root R) {k : ℕ} {c : Node}
    (hk : k ≤ c.level) (hup : ∀ x ∈ R, ¬ c < x) (hbit : (t c).testBit k = false) :
    Promising t R k c := by
  refine ⟨fun x hx hle => ?_, Or.inl hbit⟩
  rcases eq_or_lt_of_le hle with heq | hlt
  · rw [heq, h.full x hx, testBit_ones, ← heq] at hbit
    simp [hk] at hbit
  · exact hup x hx hlt

theorem promising_of_empty {k : ℕ} {c z : Node} (hc : c < z)
    (hup : ∀ x ∈ R, ¬ z ≤ x) (hempty : ∀ x ∈ R, ¬ x ≤ z) : Promising t R k c := by
  refine ⟨fun x hx hle => ?_, Or.inr fun x hx hle => hempty x hx (hle.trans hc.le)⟩
  rcases Node.le_total_of_le hle hc.le with hxz | hzx
  · exact hempty x hx hxz
  · exact hup x hx hzx

/-- Above a child of a promising node there is no taken node. -/
theorem Promising.not_lt {k : ℕ} {l n : ℕ} {c : Node} (hp : Promising t R k ⟨l + 1, n⟩)
    (hc : c < ⟨l + 1, n⟩) (hcl : c.level = l) : ∀ x ∈ R, ¬ c < x := by
  intro x hx hlt
  rcases Node.le_total_of_le hlt.le hc.le with hxz | hzx
  · have h₁ := Node.level_lt hlt
    rcases eq_or_lt_of_le hxz with heq | hxz
    · exact hp.1 x hx heq.ge
    · have h₂ : x.level < l + 1 := Node.level_lt hxz
      omega
  · exact hp.1 x hx hzx

/-- One step of the search keeps to promising nodes. -/
theorem Settled.promising_step (h : Settled t root R) {k d n : ℕ}
    (hroot : (⟨k + d + 1, n⟩ : Node) ≤ root) (hp : Promising t R k ⟨k + d + 1, n⟩) :
    Promising t R k
      (if (t ⟨k + d, n * 2⟩).testBit k = false then ⟨k + d, n * 2⟩
        else ⟨k + d, n * 2 + 1⟩) := by
  have hleft := Node.left_lt (k + d) n
  have hright := Node.right_lt (k + d) n
  by_cases hempty : ∀ x ∈ R, ¬ x ≤ ⟨k + d + 1, n⟩
  · split
    · exact promising_of_empty hleft hp.1 hempty
    · exact promising_of_empty hright hp.1 hempty
  · push Not at hempty
    obtain ⟨x, hx, hxz⟩ := hempty
    have hlt : x < ⟨k + d + 1, n⟩ := lt_of_le_of_ne hxz fun heq => hp.1 x hx heq.ge
    have hbit : (t ⟨k + d + 1, n⟩).testBit k = false := by
      rcases hp.2 with hbit | hno
      · exact hbit
      · exact absurd hxz (hno x hx)
    rw [h.joined x hx _ _ hlt hroot, testBit_join_of_le (by omega)] at hbit
    split
    · next hl =>
        exact h.promising_of_testBit (by simp) (hp.not_lt hleft rfl) hl
    · next hl =>
        refine h.promising_of_testBit (by simp) (hp.not_lt hright rfl) ?_
        simpa [hl] using hbit

/-- The search ends at a node apart from all taken ones. -/
theorem Settled.seek_apart (h : Settled t root R) (hb : Bounded t root) {k : ℕ} :
    ∀ d n, (⟨k + d, n⟩ : Node) ≤ root → Promising t R k ⟨k + d, n⟩ →
      ∀ x ∈ R, Node.Apart x ⟨k, seek t k d n⟩
  | 0, n, hroot, hp, x, hx => by
      refine ⟨fun hle => ?_, hp.1 x hx⟩
      rcases hp.2 with hbit | hno
      · have htop := h.testBit_top hb hx hle hroot
        simp only [Nat.add_zero] at hbit
        exact absurd (htop.symm.trans hbit) (by decide)
      · exact hno x hx hle
  | d + 1, n, hroot, hp, x, hx => by
      have hstep := h.promising_step hroot hp
      have hleft := Node.left_lt (k + d) n
      have hright := Node.right_lt (k + d) n
      rw [seek]
      split
      · next hl =>
          rw [if_pos hl] at hstep
          exact h.seek_apart hb d _ (hleft.le.trans hroot) hstep x hx
      · next hl =>
          rw [if_neg hl] at hstep
          exact h.seek_apart hb d _ (hright.le.trans hroot) hstep x hx

end Local

/-! ## The exact invariant -/

/-- The masks are determined by the set `A` of taken nodes: full at taken
nodes, zero below them, and the join of the children elsewhere. -/
structure Exact (t : Node → ℕ) (root : Node) (A : Set Node) : Prop where
  full : ∀ x ∈ A, t x = ones x.level
  below : ∀ x ∈ A, ∀ z < x, t z = 0
  leaf : ∀ n, (⟨0, n⟩ : Node) ≤ root → (∀ x ∈ A, ¬ (⟨0, n⟩ : Node) ≤ x) → t ⟨0, n⟩ = 0
  joined : ∀ l n, (⟨l + 1, n⟩ : Node) ≤ root → (∀ x ∈ A, ¬ (⟨l + 1, n⟩ : Node) ≤ x) →
    IsJoin t l n

/-- Taken nodes do not contain one another. -/
def Antichain (A : Set Node) : Prop := ∀ x ∈ A, ∀ y ∈ A, x ≠ y → Node.Apart x y

theorem Antichain.eq_of_le {A : Set Node} (h : Antichain A) {x y : Node} (hx : x ∈ A)
    (hy : y ∈ A) (hle : x ≤ y) : x = y := by
  by_contra hne
  exact (h x hx y hy hne).1 hle

theorem Antichain.insert {A : Set Node} (h : Antichain A) {y : Node}
    (hy : ∀ x ∈ A, Node.Apart x y) : Antichain (insert y A) := by
  rintro x (rfl | hx) z (rfl | hz) hne
  · exact absurd rfl hne
  · exact (hy z hz).symm
  · exact hy x hx
  · exact h x hx z hz hne

theorem Antichain.mono {A B : Set Node} (h : Antichain A) (hB : B ⊆ A) : Antichain B :=
  fun x hx y hy => h x (hB hx) y (hB hy)

section Exact

variable {t t' : Node → ℕ} {root y : Node} {A : Set Node}

theorem Exact.settled (h : Exact t root A) (hA : Antichain A) : Settled t root A where
  full := h.full
  joined x hx l n hlt hroot := by
    refine h.joined l n hroot fun x' hx' hle => ?_
    exact (hlt.trans_le hle).ne (hA.eq_of_le hx hx' (hlt.trans_le hle).le)

/-- Only the masks below the root matter. -/
theorem Exact.congr (h : Exact t root A) (hA : ∀ x ∈ A, x ≤ root)
    (hsame : ∀ z ≤ root, t' z = t z) : Exact t' root A where
  full x hx := by rw [hsame x (hA x hx), h.full x hx]
  below x hx z hz := by rw [hsame z (hz.le.trans (hA x hx)), h.below x hx z hz]
  leaf n hn hout := by rw [hsame _ hn, h.leaf n hn hout]
  joined l n hn hout := by
    rw [IsJoin, hsame _ hn, hsame _ ((Node.left_lt l n).le.trans hn),
      hsame _ ((Node.right_lt l n).le.trans hn)]
    exact h.joined l n hn hout

/-- A part of the tree apart from all taken nodes is zero. -/
theorem Exact.eq_zero_of_apart (h : Exact t root A) :
    ∀ {l n : ℕ}, (⟨l, n⟩ : Node) ≤ root → (∀ x ∈ A, Node.Apart x ⟨l, n⟩) → t ⟨l, n⟩ = 0
  | 0, n, hroot, hap => h.leaf n hroot fun x hx => (hap x hx).2
  | l + 1, n, hroot, hap => by
      have hleft := (Node.left_lt l n).le
      have hright := (Node.right_lt l n).le
      rw [h.joined l n hroot fun x hx => (hap x hx).2,
        h.eq_zero_of_apart (hleft.trans hroot) fun x hx => (hap x hx).mono hleft,
        h.eq_zero_of_apart (hright.trans hroot) fun x hx => (hap x hx).mono hright,
        join_zero]

/-- The taken nodes determine the tree. -/
theorem Exact.unique (h : Exact t root A) (h' : Exact t' root A) :
    ∀ {l n : ℕ}, (⟨l, n⟩ : Node) ≤ root → t' ⟨l, n⟩ = t ⟨l, n⟩ := by
  intro l
  induction l with
  | zero =>
      intro n hroot
      by_cases hin : ∃ x ∈ A, (⟨0, n⟩ : Node) ≤ x
      · obtain ⟨x, hx, hle⟩ := hin
        rcases eq_or_lt_of_le hle with heq | hlt
        · rw [heq, h'.full x hx, h.full x hx]
        · rw [h'.below x hx _ hlt, h.below x hx _ hlt]
      · have hout : ∀ x ∈ A, ¬ (⟨0, n⟩ : Node) ≤ x := fun x hx hle => hin ⟨x, hx, hle⟩
        rw [h'.leaf n hroot hout, h.leaf n hroot hout]
  | succ l ih =>
      intro n hroot
      by_cases hin : ∃ x ∈ A, (⟨l + 1, n⟩ : Node) ≤ x
      · obtain ⟨x, hx, hle⟩ := hin
        rcases eq_or_lt_of_le hle with heq | hlt
        · rw [heq, h'.full x hx, h.full x hx]
        · rw [h'.below x hx _ hlt, h.below x hx _ hlt]
      · have hout : ∀ x ∈ A, ¬ (⟨l + 1, n⟩ : Node) ≤ x := fun x hx hle => hin ⟨x, hx, hle⟩
        rw [h'.joined l n hroot hout, h.joined l n hroot hout,
          ih ((Node.left_lt l n).le.trans hroot), ih ((Node.right_lt l n).le.trans hroot)]

/-- Taking a node apart from all taken ones. -/
theorem Exact.take (h : Exact t root A) (hA : ∀ x ∈ A, x ≤ root) (hroot : y ≤ root)
    (hu : Updated t t' root y (ones y.level)) (hy : ∀ x ∈ A, Node.Apart x y) :
    Exact t' root (insert y A) where
  full := by
    rintro x (rfl | hx)
    · exact hu.self
    · rw [hu.other x (hA x hx) (hy x hx).2, h.full x hx]
  below := by
    rintro x (rfl | hx) z hz
    · rw [hu.other z (hz.le.trans hroot) (not_le_of_gt hz)]
      exact h.eq_zero_of_apart (hz.le.trans hroot) fun x' hx' => (hy x' hx').mono hz.le
    · rw [hu.other z (hz.le.trans (hA x hx)) fun hle => (hy x hx).2 (hle.trans hz.le)]
      exact h.below x hx z hz
  leaf n hn hap := by
    have hyn : ¬ y ≤ ⟨0, n⟩ := by
      intro hle
      have h0 : y.level = 0 := Nat.le_zero.mp (Node.level_mono hle)
      exact hap y (Set.mem_insert _ _) (Node.eq_of_le_of_level le_rfl hle h0).ge
    rw [hu.other _ hn hyn]
    exact h.leaf n hn fun x hx => hap x (Set.mem_insert_of_mem _ hx)
  joined l n hn hap := by
    by_cases hle : y ≤ ⟨l + 1, n⟩
    · exact hu.joined l n (lt_of_le_of_ne hle fun heq =>
        hap y (Set.mem_insert _ _) heq.ge) hn
    · exact hu.joined_of_not_le hn hle
        (h.joined l n hn fun x hx => hap x (Set.mem_insert_of_mem _ hx))

/-- After the update that releases `x`, nothing below `x` carries a bit. -/
theorem Exact.release_zero (h : Exact t root A) {x : Node} {q : ℕ} (hx : x ∈ A)
    (hxr : x ≤ root) (hq : (⟨0, q⟩ : Node) ≤ x) (hu : Updated t t' root ⟨0, q⟩ 0) :
    ∀ {l n : ℕ}, (⟨l, n⟩ : Node) ≤ x → t' ⟨l, n⟩ = 0
  | 0, n, hn => by
      by_cases hqn : (⟨0, q⟩ : Node) ≤ ⟨0, n⟩
      · rw [← Node.eq_of_le_of_level le_rfl hqn rfl, hu.self]
      · rw [hu.other _ (hn.trans hxr) hqn]
        refine h.below x hx _ (lt_of_le_of_ne hn ?_)
        rintro rfl
        exact hqn hq
  | l + 1, n, hn => by
      have hleft := Node.left_lt l n
      have hright := Node.right_lt l n
      by_cases hqn : (⟨0, q⟩ : Node) ≤ ⟨l + 1, n⟩
      · have hlt : (⟨0, q⟩ : Node) < ⟨l + 1, n⟩ :=
          lt_of_le_of_ne hqn fun heq => by simpa using congrArg Node.level heq
        rw [hu.joined l n hlt (hn.trans hxr),
          h.release_zero hx hxr hq hu (hleft.le.trans hn),
          h.release_zero hx hxr hq hu (hright.le.trans hn), join_zero]
      · rw [hu.other _ (hn.trans hxr) hqn]
        refine h.below x hx _ (lt_of_le_of_ne hn ?_)
        rintro rfl
        exact hqn hq

/-- Clearing one leaf of a taken node and rebuilding its ancestors releases the
node. -/
theorem Exact.release (h : Exact t root A) (hA : Antichain A) (hAr : ∀ x ∈ A, x ≤ root)
    {x : Node} {q : ℕ} (hx : x ∈ A) (hq : (⟨0, q⟩ : Node) ≤ x)
    (hu : Updated t t' root ⟨0, q⟩ 0) : Exact t' root (A \ {x}) := by
  have hxr := hAr x hx
  have hap : ∀ w ∈ A, w ≠ x → ¬ (⟨0, q⟩ : Node) ≤ w := by
    intro w hw hne hle
    exact ((hA w hw x hx hne).mono hq).2 hle
  constructor
  · rintro w ⟨hw, hne⟩
    rw [hu.other w (hAr w hw) (hap w hw hne), h.full w hw]
  · rintro w ⟨hw, hne⟩ z hz
    rw [hu.other z (hz.le.trans (hAr w hw)) fun hle => hap w hw hne (hle.trans hz.le)]
    exact h.below w hw z hz
  · intro n hn hout
    by_cases hnx : (⟨0, n⟩ : Node) ≤ x
    · exact h.release_zero hx hxr hq hu hnx
    · rw [hu.other _ hn]
      · refine h.leaf n hn fun w hw => ?_
        by_cases hwx : w = x
        · rwa [hwx]
        · exact hout w ⟨hw, hwx⟩
      · intro hle
        exact hnx (Node.eq_of_le_of_level le_rfl hle rfl ▸ hq)
  · intro l n hn hout
    by_cases hqn : (⟨0, q⟩ : Node) ≤ ⟨l + 1, n⟩
    · exact hu.joined l n (lt_of_le_of_ne hqn fun heq => by
        simpa using congrArg Node.level heq) hn
    · by_cases hnx : (⟨l + 1, n⟩ : Node) ≤ x
      · have hleft := (Node.left_lt l n).le
        have hright := (Node.right_lt l n).le
        rw [IsJoin, h.release_zero hx hxr hq hu hnx,
          h.release_zero hx hxr hq hu (hleft.trans hnx),
          h.release_zero hx hxr hq hu (hright.trans hnx), join_zero]
      · refine hu.joined_of_not_le hn hqn (h.joined l n hn fun w hw => ?_)
        by_cases hwx : w = x
        · rwa [hwx]
        · exact hout w ⟨hw, hwx⟩

/-- A run that no taken node meets. -/
def Free (A : Set Node) (z : Node) : Prop := ∀ x ∈ A, Node.Apart x z

/-- At a node that is not inside a taken one, bit `k` is clear exactly when the
node contains a free run of `2 ^ k` leaves. -/
theorem Exact.testBit_iff (h : Exact t root A) (hA : Antichain A)
    (hb : Bounded t root) {k : ℕ} :
    ∀ d n, (⟨k + d, n⟩ : Node) ≤ root → (∀ x ∈ A, ¬ (⟨k + d, n⟩ : Node) < x) →
      ((t ⟨k + d, n⟩).testBit k = false ↔
        ∃ z : Node, z.level = k ∧ z ≤ ⟨k + d, n⟩ ∧ Free A z)
  | 0, n, hroot, hup => by
      constructor
      · intro hbit
        refine ⟨⟨k, n⟩, rfl, le_rfl, fun x hx => ⟨fun hle => ?_, fun hle => ?_⟩⟩
        · have htop := (h.settled hA).testBit_top hb hx hle hroot
          exact absurd (htop.symm.trans hbit) (by decide)
        · rcases eq_or_lt_of_le hle with heq | hlt
          · have hfull := h.full x hx
            rw [← heq] at hfull
            simp only [Nat.add_zero] at hbit
            rw [hfull, testBit_ones] at hbit
            simp at hbit
          · exact hup x hx hlt
      · rintro ⟨z, hz, hle, hfree⟩
        have heq : z = ⟨k, n⟩ := Node.eq_of_le_of_level le_rfl hle hz
        have hzero : t ⟨k + 0, n⟩ = 0 :=
          h.eq_zero_of_apart hroot fun x hx => heq ▸ hfree x hx
        simp only [Nat.add_zero] at hzero
        simp [hzero]
  | d + 1, n, hroot, hup => by
      have hleft := Node.left_lt (k + d) n
      have hright := Node.right_lt (k + d) n
      by_cases hmem : (⟨k + d + 1, n⟩ : Node) ∈ A
      · have hfull := h.full _ hmem
        constructor
        · intro hbit
          rw [← Nat.add_assoc, hfull, testBit_ones] at hbit
          simp at hbit
          omega
        · rintro ⟨z, -, hle, hfree⟩
          exact absurd hle (hfree _ hmem).2
      · have hnle : ∀ x ∈ A, ¬ (⟨k + d + 1, n⟩ : Node) ≤ x := by
          intro x hx hle
          rcases eq_or_lt_of_le hle with heq | hlt
          · exact hmem (heq ▸ hx)
          · exact hup x hx hlt
        have hchild : ∀ c : Node, c < ⟨k + d + 1, n⟩ → c.level = k + d →
            ∀ x ∈ A, ¬ c < x := by
          intro c hc hcl x hx hlt
          rcases Node.le_total_of_le hlt.le hc.le with hxz | hzx
          · have h₁ := Node.level_lt hlt
            rcases eq_or_lt_of_le hxz with heq | hxz
            · exact hnle x hx heq.ge
            · have h₂ : x.level < k + d + 1 := Node.level_lt hxz
              omega
          · exact hnle x hx hzx
        rw [← Nat.add_assoc, h.joined (k + d) n hroot hnle, testBit_join_of_le (by omega),
          Bool.and_eq_false_iff,
          h.testBit_iff hA hb d _ (hleft.le.trans hroot) (hchild _ hleft rfl),
          h.testBit_iff hA hb d _ (hright.le.trans hroot) (hchild _ hright rfl)]
        constructor
        · rintro (⟨z, hz, hle, hfree⟩ | ⟨z, hz, hle, hfree⟩)
          · exact ⟨z, hz, hle.trans hleft.le, hfree⟩
          · exact ⟨z, hz, hle.trans hright.le, hfree⟩
        · rintro ⟨z, hz, hle, hfree⟩
          have hlt : z < ⟨k + d + 1, n⟩ := by
            refine lt_of_le_of_ne hle ?_
            rintro rfl
            simp only at hz
            omega
          rcases Node.lt_iff_le_child.mp hlt with hc | hc
          · exact Or.inl ⟨z, hz, hc, hfree⟩
          · exact Or.inr ⟨z, hz, hc, hfree⟩

end Exact

/-! ## Taking a range of leaves at once -/

/-- The leaves `a .. b`. -/
def leafRange (a b : ℕ) : Set Node := {x | x.level = 0 ∧ a ≤ x.index ∧ x.index ≤ b}

/-- `t'` results from `t` by taking the leaves `a .. b` and rebuilding every
node above one of them. -/
structure RangeTaken (t t' : Node → ℕ) (root : Node) (a b : ℕ) : Prop where
  self : ∀ y ∈ leafRange a b, t' y = ones 0
  other : ∀ z ≤ root, (∀ y ∈ leafRange a b, ¬ y ≤ z) → t' z = t z
  joined : ∀ y ∈ leafRange a b, ∀ l n, y < ⟨l + 1, n⟩ → (⟨l + 1, n⟩ : Node) ≤ root →
    IsJoin t' l n

section Range

variable {t t' : Node → ℕ} {root : Node} {a b : ℕ} {A : Set Node}

theorem RangeTaken.settled (hr : RangeTaken t t' root a b) :
    Settled t' root (leafRange a b) where
  full x hx := by rw [hr.self x hx, hx.1]
  joined x hx := hr.joined x hx

/-- Taking a range of leaves in a tree where only leaves are taken. -/
theorem Exact.takeRange (h : Exact t root A) (hA : ∀ x ∈ A, x ≤ root)
    (hleaf : ∀ x ∈ A, x.level = 0) (hr : RangeTaken t t' root a b) :
    Exact t' root (A ∪ leafRange a b) where
  full := by
    rintro x (hx | hx)
    · by_cases hin : ∃ y ∈ leafRange a b, y ≤ x
      · obtain ⟨y, hy, hyx⟩ := hin
        have heq : y = x := Node.eq_of_le_of_level le_rfl hyx (hy.1.trans (hleaf x hx).symm)
        rw [← heq, hr.self y hy, hy.1]
      · push Not at hin
        rw [hr.other x (hA x hx) hin, h.full x hx]
    · rw [hr.self x hx, hx.1]
  below := by
    rintro x (hx | hx) z hz
    · have := Node.level_lt hz
      have := hleaf x hx
      omega
    · have := Node.level_lt hz
      have := hx.1
      omega
  leaf n hn hap := by
    rw [hr.other _ hn]
    · exact h.leaf n hn fun x hx => hap x (Or.inl hx)
    · intro y hy hle
      exact hap y (Or.inr hy) (Node.eq_of_le_of_level le_rfl hle hy.1).ge
  joined l n hn hap := by
    by_cases hin : ∃ y ∈ leafRange a b, y ≤ ⟨l + 1, n⟩
    · obtain ⟨y, hy, hle⟩ := hin
      exact hr.joined y hy l n (lt_of_le_of_ne hle fun heq =>
        hap y (Or.inr hy) heq.ge) hn
    · push Not at hin
      have hleft := (Node.left_lt l n).le
      have hright := (Node.right_lt l n).le
      rw [IsJoin, hr.other _ hn hin,
        hr.other _ (hleft.trans hn) fun y hy hle => hin y hy (hle.trans hleft),
        hr.other _ (hright.trans hn) fun y hy hle => hin y hy (hle.trans hright)]
      exact h.joined l n hn fun x hx => hap x (Or.inl hx)

/-- An empty tree. -/
theorem exact_empty (h : ∀ z ≤ root, t z = 0) : Exact t root ∅ where
  full x hx := absurd hx (Set.notMem_empty x)
  below x hx := absurd hx (Set.notMem_empty x)
  leaf n hn _ := h _ hn
  joined l n hn _ := by
    rw [IsJoin, h _ hn, h _ ((Node.left_lt l n).le.trans hn),
      h _ ((Node.right_lt l n).le.trans hn), join_zero]

theorem ones_zero : ones 0 = 1 := rfl

/-- A tree in which only leaves are taken: the leaves say which, and every other node
joins its children. -/
theorem exact_of_leaf (hA : ∀ x ∈ A, x.level = 0) (hfull : ∀ n, (⟨0, n⟩ : Node) ∈ A → t ⟨0, n⟩ = 1)
    (hzero : ∀ n, (⟨0, n⟩ : Node) ≤ root → (⟨0, n⟩ : Node) ∉ A → t ⟨0, n⟩ = 0)
    (hjoin : ∀ l n, (⟨l + 1, n⟩ : Node) ≤ root → IsJoin t l n) : Exact t root A where
  full := by
    rintro ⟨l, n⟩ hx
    obtain rfl : l = 0 := hA _ hx
    rw [hfull n hx, ones_zero]
  below x hx z hz := by
    have hlevel := Node.level_lt hz
    rw [hA x hx] at hlevel
    exact absurd hlevel (Nat.not_lt_zero _)
  leaf n hn hout := hzero n hn fun hmem => hout _ hmem le_rfl
  joined l n hn _ := hjoin l n hn

theorem Exact.leaf_eq_zero_iff (h : Exact t root A) (hA : ∀ x ∈ A, x.level = 0) {n : ℕ}
    (hn : (⟨0, n⟩ : Node) ≤ root) : t ⟨0, n⟩ = 0 ↔ (⟨0, n⟩ : Node) ∉ A := by
  constructor
  · intro hzero hmem
    have hfull := h.full _ hmem
    rw [hzero, ones_zero] at hfull
    exact absurd hfull (by decide)
  · intro hout
    refine h.leaf n hn fun x hx hle => hout ?_
    rwa [Node.eq_of_le_of_level le_rfl hle (hA x hx).symm]

theorem Exact.joined_of_leaf (h : Exact t root A) (hA : ∀ x ∈ A, x.level = 0) {l n : ℕ}
    (hn : (⟨l + 1, n⟩ : Node) ≤ root) : IsJoin t l n := by
  refine h.joined l n hn fun x hx hle => ?_
  have hlevel := Node.level_mono hle
  rw [hA x hx] at hlevel
  exact absurd hlevel (Nat.not_succ_le_zero l)

end Range

end Neos.BuddyTree
