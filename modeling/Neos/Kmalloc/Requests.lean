import Neos.Kmalloc.Setup
import Mathlib.Data.Nat.Log

/-!
# Requests on a well laid out arena

What `kmalloc`, `kfree` and `krealloc` do on a well laid out arena, in terms of
the tree: which node is taken or released and which address is returned.  No
assumption is made here about the masks outside the taken nodes.
-/

namespace Neos.Kmalloc

open BitMemory BuddyTree

/-! ## Request sizes -/

/-- The level of the smallest node that holds a request: the exponent of the
least power of two of segments holding `size` bytes. -/
def levelFor (size : ℕ) : ℕ := Nat.clog 2 ((size + blockSize - 1) / blockSize)

theorem powerLoop_spec {segments : ℕ} :
    ∀ (fuel j : ℕ), j ≤ Nat.clog 2 segments → Nat.clog 2 segments ≤ j + fuel →
      powerLoop segments fuel (2 ^ j) j = Nat.clog 2 segments
  | 0, j, h₁, h₂ => by
      rw [powerLoop]
      omega
  | fuel + 1, j, h₁, h₂ => by
      have hshift : 2 ^ j <<< 1 = 2 ^ (j + 1) := by
        rw [Nat.shiftLeft_eq, pow_one, ← pow_succ]
      have hiff := Nat.lt_clog_iff_pow_lt (b := 2) (by decide) (x := segments) (y := j)
      rw [powerLoop, hshift]
      split
      · next hlt => exact powerLoop_spec fuel (j + 1) (hiff.mpr hlt) (by omega)
      · next hge =>
          have := mt hiff.mp hge
          omega

theorem requestLevel_eq_clog (size : ℕ) : requestLevel size = Nat.clog 2 (segmentCount size) := by
  have hle : Nat.clog 2 (segmentCount size) ≤ 0 + 32 := by
    rw [Nat.clog_le_iff_le_pow (by decide)]
    unfold segmentCount blockSize
    omega
  exact powerLoop_spec 32 0 (Nat.zero_le _) hle

/-- For a proper request the code computes the intended level. -/
theorem requestLevel_eq {size : ℕ} (h₁ : 1 ≤ size) (h₂ : size < 2 ^ 32) :
    requestLevel size = levelFor size := by
  rw [requestLevel_eq_clog, levelFor]
  congr 1
  unfold segmentCount blockSize
  omega

/-- A request of zero bytes is taken for one of `2 ^ 22` segments. -/
theorem requestLevel_zero : requestLevel 0 = 22 := by
  rw [requestLevel_eq_clog]
  have : segmentCount 0 = 2 ^ 22 := by decide
  rw [this, Nat.clog_pow 2 22 (by decide)]

theorem requestLevel_le_twentyTwo (size : ℕ) : requestLevel size ≤ 22 := by
  rw [requestLevel_eq_clog, Nat.clog_le_iff_le_pow (by decide)]
  unfold segmentCount blockSize
  omega

theorem levelFor_le_iff {size m : ℕ} : levelFor size ≤ m ↔ size ≤ 2 ^ m * blockSize := by
  rw [levelFor, Nat.clog_le_iff_le_pow (by decide)]
  unfold blockSize
  omega

/-! ## Searching -/

theorem and_shiftLeft_one_eq_zero_iff {v k : ℕ} :
    v &&& 1 <<< k = 0 ↔ v.testBit k = false := by
  rw [Nat.one_shiftLeft]
  constructor
  · intro h
    have := congrArg (fun x => x.testBit k) h
    simpa [Nat.testBit_and, Nat.testBit_two_pow] using this
  · intro h
    refine Nat.eq_of_testBit_eq fun i => ?_
    rw [Nat.testBit_and, Nat.testBit_two_pow, Nat.zero_testBit]
    by_cases hi : k = i
    · subst hi
      simp [h]
    · simp [hi]

/-- `allocate` is the search of the tree, as far as the stack reaches. -/
theorem allocate_eq {s : Allocator} (hmax : s.maxTreeLevel ≤ 22) {k : ℕ} :
    ∀ (d frames n : ℕ), (⟨k + d, n⟩ : Node) ≤ s.root →
      allocate s (1 <<< k) k frames (k + d) n =
        if d < frames then some (seek s.tree k d n) else none
  | _, 0, _, _ => by simp [allocate]
  | 0, frames + 1, n, _ => by simp [allocate, seek]
  | d + 1, frames + 1, n, hn => by
      have hroot := le_root_iff.mp hn
      have hpow : 2 ^ (s.maxTreeLevel - (k + (d + 1))) ≤ 2 ^ 22 :=
        Nat.pow_le_pow_right (by decide) (by omega)
      simp only at hroot
      have hlevel : (k + (d + 1) + 2 ^ 32 - 1) % 2 ^ 32 = k + d := by omega
      have hnode : n * 2 % 2 ^ 32 = n * 2 := Nat.mod_eq_of_lt (by omega)
      have hnode' : (n * 2 + 1) % 2 ^ 32 = n * 2 + 1 := Nat.mod_eq_of_lt (by omega)
      have hne : ¬ k = k + (d + 1) := by omega
      have htree : s.tree ⟨k + d, n * 2⟩ = getTreeElement s (k + d) (n * 2) := rfl
      have hleft := (Node.left_lt (k + d) n).le.trans hn
      have hright := (Node.right_lt (k + d) n).le.trans hn
      rw [allocate, if_neg hne]
      simp only [hlevel, hnode, hnode', and_shiftLeft_one_eq_zero_iff, Nat.add_lt_add_iff_right]
      rw [seek, htree, allocate_eq hmax d frames _ hleft, allocate_eq hmax d frames _ hright]
      by_cases hbit : (getTreeElement s (k + d) (n * 2)).testBit k = false
      · rw [if_pos hbit, if_pos hbit]
      · rw [if_neg hbit, if_neg hbit]

/-- Below its level the search never returns: the level wraps to the top of the
32-bit range, and the stack is exhausted long before it comes down again. -/
theorem allocate_eq_none {s : Allocator} {mask k : ℕ} :
    ∀ (frames level node : ℕ), level < 2 ^ 32 → k < 2 ^ 32 →
      frames ≤ (level + 2 ^ 32 - k) % 2 ^ 32 → allocate s mask k frames level node = none
  | 0, _, _, _, _, _ => rfl
  | frames + 1, level, node, hl, hk, hf => by
      have hne : ¬ k = level := by
        rintro rfl
        simp at hf
      have hnext : frames ≤ ((level + 2 ^ 32 - 1) % 2 ^ 32 + 2 ^ 32 - k) % 2 ^ 32 := by
        omega
      have hl' : (level + 2 ^ 32 - 1) % 2 ^ 32 < 2 ^ 32 := Nat.mod_lt _ (by decide)
      rw [allocate, if_neg hne]
      dsimp only
      rw [allocate_eq_none frames _ _ hl' hk hnext, allocate_eq_none frames _ _ hl' hk hnext,
        ite_self]

/-! ## Addresses of nodes -/

/-- A block of memory: the pointer handed out and the number of bytes reserved
behind it. -/
@[ext] structure Block where
  start : ℕ
  size : ℕ
deriving DecidableEq

/-- The addresses of a block. -/
def Block.range (b : Block) : Set ℕ := Set.Ico b.start (b.start + b.size)

/-- The block of a node. -/
def Allocator.block (s : Allocator) (x : Node) : Block where
  start := s.offset + x.index * 2 ^ x.level * blockSize
  size := 2 ^ x.level * blockSize

theorem Same.block_eq {s s' : Allocator} (h : Same s s') (x : Node) : s'.block x = s.block x := by
  obtain ⟨m, rfl⟩ := h
  rfl

theorem block_injective (s : Allocator) : Function.Injective s.block := by
  intro x y hxy
  have hsize : 2 ^ x.level * blockSize = 2 ^ y.level * blockSize := congrArg Block.size hxy
  have hstart : s.offset + x.index * 2 ^ x.level * blockSize =
      s.offset + y.index * 2 ^ y.level * blockSize := congrArg Block.start hxy
  have hblock : 0 < blockSize := by decide
  have hlevel : x.level = y.level :=
    Nat.pow_right_injective le_rfl (Nat.eq_of_mul_eq_mul_right hblock hsize)
  have hindex : x.index * 2 ^ x.level = y.index * 2 ^ y.level :=
    Nat.eq_of_mul_eq_mul_right hblock (Nat.add_left_cancel hstart)
  rw [hlevel] at hindex
  exact Node.ext hlevel (Nat.eq_of_mul_eq_mul_right (Nat.two_pow_pos _) hindex)

/-- An address lies in the block of a node when its segment is a leaf of the
node. -/
theorem mem_block_iff {s : Allocator} {x : Node} {a : ℕ} :
    a ∈ (s.block x).range ↔ s.offset ≤ a ∧ (a - s.offset) / blockSize ∈ x.leaves := by
  have hb : 0 < blockSize := by decide
  rw [Block.range, Allocator.block, Node.leaves, Set.mem_Ico, Set.mem_Ico,
    Nat.le_div_iff_mul_le hb, Nat.div_lt_iff_lt_mul hb, Nat.add_mul (x.index), Nat.one_mul,
    Nat.add_mul _ _ blockSize]
  dsimp only
  omega

theorem blocks_disjoint {s : Allocator} {x y : Node} (h : Node.Apart x y) :
    Disjoint (s.block x).range (s.block y).range := by
  rw [Set.disjoint_left]
  intro a hx hy
  exact Set.disjoint_left.mp (Node.leaves_disjoint h) (mem_block_iff.mp hx).2
    (mem_block_iff.mp hy).2

section Requests

variable {s : Allocator} {R : Set Node}

/-- Apart from the system segments, a node lies before the control
structure. -/
theorem block_end_le {y : Node} (hy : y ≤ s.root)
    (hsys : ∀ x ∈ systemSegments s, Node.Apart x y) :
    (s.block y).start + (s.block y).size ≤ s.offset + s.end_ := by
  have hroot := le_root_iff.mp hy
  -- the last leaf of the node is not a system segment
  have hp := Nat.two_pow_pos y.level
  have hend : (y.index + 1) * 2 ^ y.level ≤ 2 ^ s.maxTreeLevel := by
    have he : 2 ^ s.maxTreeLevel = 2 ^ (s.maxTreeLevel - y.level) * 2 ^ y.level := by
      rw [← pow_add]
      congr 1
      omega
    rw [he]
    exact Nat.mul_le_mul_right _ hroot.2
  have hlast : (y.index + 1) * 2 ^ y.level - 1 ∈ y.leaves := by
    rw [Nat.add_mul, Nat.one_mul]
    exact ⟨by omega, by rw [Nat.add_mul, Nat.one_mul]; omega⟩
  have hlt : (y.index + 1) * 2 ^ y.level - 1 < s.end_ / blockSize := by
    by_contra hcon
    have hmem : (⟨0, (y.index + 1) * 2 ^ y.level - 1⟩ : Node) ∈ systemSegments s :=
      ⟨rfl, by simp only; omega, by simp only; omega⟩
    exact (hsys _ hmem).1 (Node.mem_leaves.mp hlast)
  have hle : (y.index + 1) * 2 ^ y.level * blockSize ≤ s.end_ := by
    calc (y.index + 1) * 2 ^ y.level * blockSize ≤ s.end_ / blockSize * blockSize :=
          Nat.mul_le_mul_right _ (by omega)
      _ ≤ s.end_ := Nat.div_mul_le_self _ _
  rw [Nat.add_mul, Nat.one_mul, Nat.add_mul] at hle
  simp only [Allocator.block]
  omega

theorem Layout.segmentOf_eq (h : Layout s) {a : ℕ} (h₁ : s.offset ≤ a)
    (h₂ : a < s.offset + s.size) : segmentOf s a = (a - s.offset) / blockSize := by
  have := h.fits
  unfold segmentOf
  congr 1
  omega

/-- The address of a node as the code computes it. -/
theorem block_start_eq (s : Allocator) (k n : ℕ) :
    (n <<< k) * blockSize + s.offset = (s.block ⟨k, n⟩).start := by
  rw [Nat.shiftLeft_eq, Allocator.block, Nat.add_comm]

theorem promising_root (hR : ∀ x ∈ R, x ≤ s.root)
    (hset : Settled s.tree s.root R) {k : ℕ} (hk : k ≤ s.maxTreeLevel)
    (hbit : (s.tree s.root).testBit k = false) : Promising s.tree R k s.root :=
  hset.promising_of_testBit hk (fun x hx hlt => absurd (hR x hx) (not_le_of_gt hlt)) hbit

/-- The node `kmalloc` takes. -/
def Allocator.choice (s : Allocator) (k : ℕ) : Node :=
  ⟨k, seek s.tree k (s.maxTreeLevel - k) 0⟩

@[simp] theorem choice_level (s : Allocator) (k : ℕ) : (s.choice k).level = k := rfl

theorem choice_le_root {k : ℕ} (hk : k ≤ s.maxTreeLevel) :
    s.choice k ≤ s.root := by
  have := seek_le s.tree k (s.maxTreeLevel - k) 0
  rwa [Nat.add_sub_cancel' hk] at this

theorem Layout.choice_apart (h : Layout s) (hR : ∀ x ∈ R, x ≤ s.root)
    (hset : Settled s.tree s.root R) {k : ℕ} (hk : k ≤ s.maxTreeLevel)
    (hbit : (s.tree s.root).testBit k = false) : ∀ x ∈ R, Node.Apart x (s.choice k) := by
  have hroot : (⟨k + (s.maxTreeLevel - k), 0⟩ : Node) = s.root := by
    rw [Nat.add_sub_cancel' hk]
    rfl
  exact hset.seek_apart h.tree_bounded _ 0 hroot.le
    (hroot ▸ promising_root hR hset hk hbit)

/-- `kmalloc` of a size the tree can hold. -/
theorem kmalloc_eq (hmax : s.maxTreeLevel ≤ 22) (frames : ℕ) {size : ℕ}
    (hk : requestLevel size ≤ s.maxTreeLevel) :
    kmalloc frames s size =
      if (s.tree s.root).testBit (requestLevel size) then some (0, s)
      else if s.maxTreeLevel - requestLevel size < frames then
        some ((s.block (s.choice (requestLevel size))).start,
          reserve s (requestLevel size) (s.choice (requestLevel size)).index)
      else none := by
  have halloc := allocate_eq hmax (k := requestLevel size)
    (s.maxTreeLevel - requestLevel size) frames 0
    (by rw [Nat.add_sub_cancel' hk]; exact le_rfl)
  rw [Nat.add_sub_cancel' hk] at halloc
  unfold kmalloc
  simp only [ne_eq, and_shiftLeft_one_eq_zero_iff]
  change (if ¬ (s.tree s.root).testBit (requestLevel size) = false then _ else _) = _
  cases hbit : (s.tree s.root).testBit (requestLevel size)
  · simp only [not_true_eq_false, if_false, Bool.false_eq_true]
    by_cases hf : s.maxTreeLevel - requestLevel size < frames
    · rw [if_pos hf] at halloc ⊢
      rw [halloc]
      simp only
      rw [block_start_eq]
      rfl
    · rw [if_neg hf] at halloc ⊢
      rw [halloc]
  · simp

theorem Layout.kmalloc_refused (h : Layout s) (frames : ℕ) {size : ℕ}
    (hk : requestLevel size ≤ s.maxTreeLevel)
    (hbit : (s.tree s.root).testBit (requestLevel size) = true) :
    kmalloc frames s size = some (0, s) := by
  rw [kmalloc_eq h.le_twentyTwo frames hk, if_pos hbit]

/-- With room in the tree `kmalloc` takes a node apart from the taken ones and returns
its address. -/
theorem Layout.kmalloc_granted (h : Layout s) (hR : ∀ x ∈ R, x ≤ s.root)
    (hset : Settled s.tree s.root R) {frames size r : ℕ} {s' : Allocator}
    (hk : requestLevel size ≤ s.maxTreeLevel)
    (hbit : (s.tree s.root).testBit (requestLevel size) = false)
    (hcall : kmalloc frames s size = some (r, s')) :
    ∃ y : Node, y.level = requestLevel size ∧ y ≤ s.root ∧ (∀ x ∈ R, Node.Apart x y) ∧
      Updated s.tree s'.tree s.root y (ones y.level) ∧ Same s s' ∧ r = (s.block y).start := by
  rw [kmalloc_eq h.le_twentyTwo frames hk, if_neg (by rw [hbit]; decide)] at hcall
  split at hcall
  · cases hcall
    have hy := choice_le_root hk
    have hu := h.reserve_updated hy
    rw [choice_level] at hu
    refine ⟨s.choice (requestLevel size), rfl, hy, ?_, ?_, reserve_same s _ _, rfl⟩
    · exact h.choice_apart hR hset hk hbit
    · rw [choice_level]
      exact hu
  · cases hcall

/-- Walking up from a segment, the first non-zero mask is met at the level of
any given non-zero ancestor at the latest. -/
theorem areaLevelLoop_le {x : Node} (hx : s.tree x ≠ 0) :
    ∀ (fuel l n : ℕ), (⟨l, n⟩ : Node) ≤ x → x.level < fuel + l →
      ∃ l', areaLevelLoop s fuel l n = some l' ∧ l' ≤ x.level
  | 0, l, n, hle, hfuel => by
      have hl : l ≤ x.level := Node.level_mono hle
      omega
  | fuel + 1, l, n, hle, hfuel => by
      have hl : l ≤ x.level := Node.level_mono hle
      by_cases hzero : getTreeElement s l n = 0
      · have hlt : (⟨l, n⟩ : Node) < x := by
          refine lt_of_le_of_ne hle ?_
          rintro rfl
          exact hx hzero
        obtain ⟨l', h₁, h₂⟩ := areaLevelLoop_le hx fuel (l + 1) (n / 2)
          (parent_le_of_lt hlt) (by omega)
        exact ⟨l', by rw [areaLevelLoop, if_pos hzero, h₁], h₂⟩
      · exact ⟨l, by rw [areaLevelLoop, if_neg hzero], hl⟩

theorem reallocReturn_self (s : Allocator) (pointer level : ℕ) :
    reallocReturn s pointer level pointer = (pointer, s) := by
  simp [reallocReturn, memmove]

theorem reallocReturn_eq (s : Allocator) (pointer level r : ℕ) :
    reallocReturn s pointer level r = (r, (reallocReturn s pointer level r).2) := rfl

/-- The ways `krealloc` can return: the block is large enough, the node around
it is free once it is released, or a new block is requested. -/
theorem krealloc_cases {frames pointer size r l : ℕ} {s' : Allocator}
    (hl : areaLevel s (segmentOf s pointer) = some l)
    (hcall : krealloc frames s pointer size = some (r, s')) :
    (requestLevel size ≤ l ∧ r = pointer ∧ s' = s) ∨
    (l < requestLevel size ∧
      let s₁ := kfree s pointer
      let y : Node := ⟨requestLevel size, segmentOf s pointer / 2 ^ requestLevel size⟩
      (s₁.tree y = 0 ∧ r = (s₁.block y).start ∧
        s' = (reallocReturn (reserve s₁ y.level y.index) pointer l r).2) ∨
      (s₁.tree y ≠ 0 ∧ r = 0 ∧ kmalloc frames s₁ size = some (0, s')) ∨
      (s₁.tree y ≠ 0 ∧ r ≠ 0 ∧ ∃ s₂, kmalloc frames s₁ size = some (r, s₂) ∧
        s' = (reallocReturn s₂ pointer l r).2)) := by
  unfold krealloc at hcall
  dsimp only at hcall
  rw [hl, Option.bind_eq_bind, Option.bind_some] at hcall
  simp only [Nat.shiftRight_eq_div_pow] at hcall
  split at hcall
  · next hge =>
      rw [reallocReturn_self] at hcall
      obtain ⟨rfl, rfl⟩ := Prod.mk.inj (Option.some.inj hcall)
      exact Or.inl ⟨hge, rfl, rfl⟩
  · next hlt =>
      refine Or.inr ⟨by omega, ?_⟩
      split at hcall
      · next hzero =>
          rw [block_start_eq, reallocReturn_eq] at hcall
          obtain ⟨rfl, rfl⟩ := Prod.mk.inj (Option.some.inj hcall)
          exact Or.inl ⟨hzero, rfl, rfl⟩
      · next htaken =>
        right
        obtain ⟨⟨eax, s₂⟩, hsome, hcall⟩ := Option.bind_eq_some_iff.mp hcall
        split at hcall
        · next hzero =>
            obtain ⟨rfl, rfl⟩ := Prod.mk.inj (Option.some.inj hcall)
            subst hzero
            exact Or.inl ⟨htaken, rfl, hsome⟩
        · next hne =>
            rw [reallocReturn_eq] at hcall
            obtain ⟨rfl, rfl⟩ := Prod.mk.inj (Option.some.inj hcall)
            exact Or.inr ⟨htaken, hne, s₂, hsome, rfl⟩

/-- Copying into a block that lies before the control structure does not
change the tree. -/
theorem Layout.tree_reallocReturn (h : Layout s) {y : Node} (hyr : y ≤ s.root)
    (hy : ∀ x ∈ systemSegments s, Node.Apart x y) {pointer level : ℕ}
    (hlevel : level ≤ y.level) {z : Node} (hz : z ≤ s.root) :
    (reallocReturn s pointer level (s.block y).start).2.tree z = s.tree z := by
  refine h.tree_eq_of_mem ⟨_, rfl⟩ (fun a ha₁ ha₂ => memmove_frame _ _ _ _ fun j hj heq => ?_) hz
  have hend := block_end_le hyr hy
  have hfits := h.fits
  have hpow : 2 ^ level ≤ 2 ^ y.level := Nat.pow_le_pow_right (by decide) hlevel
  have hlev := h.level_le hyr
  have hpow' : 2 ^ y.level ≤ 2 ^ 22 := Nat.pow_le_pow_right (by decide) hlev
  have hjlt : j < 2 ^ level * blockSize := by
    unfold toInt at hj
    split at hj <;> unfold blockSize at * <;> omega
  simp only [Allocator.block] at hend heq
  have hj' : j < 2 ^ y.level * blockSize :=
    hjlt.trans_le (Nat.mul_le_mul_right _ hpow)
  rw [wrap_of_lt (by omega)] at heq
  omega

end Requests

end Neos.Kmalloc
