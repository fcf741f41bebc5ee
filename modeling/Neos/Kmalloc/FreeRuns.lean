import Neos.Kmalloc.Separation

/-!
# Free runs

When `kmalloc` refuses a request.  In an arena that was cleared completely, the
tree records exactly which runs of segments are free, so a request within the
tree is refused only when no run of its length is free.  A request beyond the
root of the tree is not refused: the search never returns.
-/

namespace Neos.Kmalloc

open BitMemory BuddyTree Relation

/-! ## Booting -/

/-- The allocator after `kset` and calls of `kmres` for ranges of the arena,
with the reserved ranges.  The arena lies in one half of the address space,
because `kmres` clamps its arguments as signed integers. -/
inductive Booted : Allocator → List Block → Prop
  | kset (beyond : ℕ → LevelDescriptor) (mem : Memory) {size offset : ℕ}
      (hsize : 8192 ≤ size) (hoffset : offset ≠ 0) (hfits : offset + size < 2 ^ 32) :
      Booted (kset (boot beyond mem) size offset) []
  | kmres {s : Allocator} {reserved : List Block} {pointer size : ℕ}
      (hboot : Booted s reserved)
      (hhalf : s.offset + s.size ≤ 2 ^ 31 ∨ 2 ^ 31 ≤ s.offset)
      (hstart : s.offset ≤ pointer) (hsize : 1 ≤ size)
      (hend : pointer + size ≤ s.offset + s.size)
      (hleaves : pointer + size ≤ s.offset + (s.treeLevels 0).size * blockSize) :
      Booted (kmres s pointer size) (⟨pointer, size⟩ :: reserved)

/-- The segments a range meets. -/
def Allocator.segments (s : Allocator) (b : Block) : Set Node :=
  leafRange ((b.start - s.offset) / blockSize)
    ((b.start + b.size - 1 - s.offset) / blockSize)

/-- The segments that are never handed out. -/
def Allocator.fixed (s : Allocator) (reserved : List Block) : Set Node :=
  systemSegments s ∪ {x | ∃ b ∈ reserved, x ∈ s.segments b}

theorem kmres_eq {s : Allocator} (h : Layout s) {pointer size : ℕ}
    (hhalf : s.offset + s.size ≤ 2 ^ 31 ∨ 2 ^ 31 ≤ s.offset) (hstart : s.offset ≤ pointer)
    (hsize : 1 ≤ size) (hend : pointer + size ≤ s.offset + s.size) :
    kmres s pointer size = takeSegments s ((pointer - s.offset) / blockSize)
      ((pointer + size - 1 - s.offset) / blockSize) := by
  have hfits := h.fits
  have hword : ∀ n, 1 ≤ n → toInt (n + 2 ^ 32 - 1) = toInt (n - 1) := by
    intro n hn
    rw [← toInt_add_word (n - 1)]
    congr 1
    omega
  -- inside one half of the address space the clamping changes nothing
  have hclamp : ∀ p, s.offset ≤ p → p < s.offset + s.size →
      toWord (clamp (toInt p) (toInt s.offset) (toInt (s.offset + s.size - 1))) = p := by
    intro p h₁ h₂
    have hle : toInt s.offset ≤ toInt p ∧ toInt p ≤ toInt (s.offset + s.size - 1) := by
      rcases hhalf with hlow | hhigh
      · rw [toInt_of_lt (by omega), toInt_of_lt (by omega), toInt_of_lt (by omega)]
        omega
      · rw [toInt_of_ge hhigh (by omega), toInt_of_ge (by omega) (by omega),
          toInt_of_ge (by omega) (by omega)]
        omega
    rw [clamp_eq_self hle.1 hle.2, toWord_toInt, Nat.mod_eq_of_lt (by omega)]
  unfold kmres
  dsimp only
  rw [hword _ (by omega), hword _ (by omega), hclamp _ (by omega) (by omega),
    hclamp _ (by omega) (by omega),
    h.segmentOf_eq hstart (by omega), h.segmentOf_eq (by omega) (by omega)]
  rfl

theorem Same.fixed_eq {s s' : Allocator} (h : Same s s') (reserved : List Block) :
    s'.fixed reserved = s.fixed reserved := by
  obtain ⟨m, rfl⟩ := h
  rfl

theorem fixed_level {s : Allocator} {reserved : List Block} :
    ∀ x ∈ s.fixed reserved, x.level = 0 := by
  rintro x (hx | ⟨b, -, hx⟩)
  · exact hx.1
  · exact hx.1

theorem fixed_antichain (s : Allocator) (reserved : List Block) :
    Antichain (s.fixed reserved) := by
  intro x hx y hy hne
  have hl : x.level = y.level := (fixed_level x hx).trans (fixed_level y hy).symm
  exact ⟨fun h => hne (Node.eq_of_le_of_level le_rfl h hl),
    fun h => hne (Node.eq_of_le_of_level le_rfl h hl.symm).symm⟩

theorem fixed_cons (s : Allocator) (b : Block) (reserved : List Block) :
    s.fixed (b :: reserved) = s.fixed reserved ∪ s.segments b := by
  ext x
  simp only [Allocator.fixed, List.mem_cons, Set.mem_union, Set.mem_ofPred_eq]
  constructor
  · rintro (h | ⟨c, rfl | hc, hx⟩)
    · exact Or.inl (Or.inl h)
    · exact Or.inr hx
    · exact Or.inl (Or.inr ⟨c, hc, hx⟩)
  · rintro ((h | ⟨c, hc, hx⟩) | h)
    · exact Or.inl h
    · exact Or.inr ⟨c, Or.inr hc, hx⟩
    · exact Or.inr ⟨b, Or.inl rfl, h⟩

/-- `kmres` of a range of the arena takes the segments of the range. -/
theorem Layout.kmres_exact {s : Allocator} {reserved : List Block} (hl : Layout s)
    (hroot : ∀ x ∈ s.fixed reserved, x ≤ s.root)
    (hexact : Exact s.tree s.root (s.fixed reserved)) {pointer size : ℕ}
    (hhalf : s.offset + s.size ≤ 2 ^ 31 ∨ 2 ^ 31 ≤ s.offset) (hstart : s.offset ≤ pointer)
    (hsize : 1 ≤ size) (hend : pointer + size ≤ s.offset + s.size)
    (hleaves : pointer + size ≤ s.offset + (s.treeLevels 0).size * blockSize) :
    Same s (kmres s pointer size) ∧
      (∀ x ∈ (kmres s pointer size).fixed (⟨pointer, size⟩ :: reserved),
        x ≤ (kmres s pointer size).root) ∧
      Exact (kmres s pointer size).tree (kmres s pointer size).root
        ((kmres s pointer size).fixed (⟨pointer, size⟩ :: reserved)) := by
  have hblock : 0 < blockSize := by decide
  set first := (pointer - s.offset) / blockSize with hfirst
  set last := (pointer + size - 1 - s.offset) / blockSize with hlast
  have hpow := hl.size_eq 0 (Nat.zero_le _)
  rw [Nat.sub_zero] at hpow
  rw [hpow] at hleaves
  have hle : first ≤ last := Nat.div_le_div_right (by omega)
  have hlt : last < 2 ^ s.maxTreeLevel := by
    rw [hlast, Nat.div_lt_iff_lt_mul hblock]
    omega
  have hlast_root : (⟨0, last⟩ : Node) ≤ s.root :=
    le_root_iff.mpr ⟨Nat.zero_le _, by simpa using hlt⟩
  rw [kmres_eq hl hhalf hstart hsize hend]
  have hsame := takeSegments_same s first last
  have hrange := hl.takeSegments_rangeTaken hle hlast_root
  have hunion : (takeSegments s first last).fixed (⟨pointer, size⟩ :: reserved) =
      s.fixed reserved ∪ leafRange first last := by
    rw [hsame.fixed_eq, fixed_cons]
    rfl
  rw [hunion, hsame.root_eq]
  refine ⟨hsame, ?_, hexact.takeRange hroot fixed_level hrange⟩
  rintro x (hx | ⟨hx₀, -, hx⟩)
  · exact hroot x hx
  · refine le_root_iff.mpr ⟨by omega, ?_⟩
    rw [hx₀, Nat.sub_zero]
    omega

/-- What booting establishes. -/
structure BootedInvariant (s : Allocator) (reserved : List Block) : Prop where
  layout : Layout s
  offset_ne : s.offset ≠ 0
  le_root : ∀ x ∈ s.fixed reserved, x ≤ s.root
  exact : Exact s.tree s.root (s.fixed reserved)
  ranges : ∀ b ∈ reserved, s.offset ≤ b.start ∧ 1 ≤ b.size

theorem Booted.invariant {s : Allocator} {reserved : List Block} (hb : Booted s reserved) :
    BootedInvariant s reserved := by
  induction hb with
  | @kset beyond mem size offset hsize hoffset hfits =>
      obtain ⟨hready, hoff, -, hexact⟩ := kset_ready beyond mem (by omega) (by omega) hfits.le
      have hfixed : (Kmalloc.kset (boot beyond mem) size offset).fixed [] =
          systemSegments (Kmalloc.kset (boot beyond mem) size offset) := by
        simp [Allocator.fixed]
      refine ⟨hready.layout, by rwa [hoff], ?_, ?_, by simp⟩
      · rw [hfixed]
        exact systemSegments_le_root _
      · rw [hfixed]
        exact hexact hfits
  | @kmres s reserved pointer size hboot hhalf hstart hsize hend hleaves ih =>
      obtain ⟨hsame, hroot, hexact⟩ :=
        ih.layout.kmres_exact ih.le_root ih.exact hhalf hstart hsize hend hleaves
      have hoffset : (Kmalloc.kmres s pointer size).offset = s.offset := by
        obtain ⟨m, hm⟩ := hsame
        rw [hm]
      refine ⟨ih.layout.same hsame, hoffset ▸ ih.offset_ne, hroot, hexact, ?_⟩
      rw [hoffset]
      rintro b (_ | ⟨_, hb⟩)
      · exact ⟨hstart, hsize⟩
      · exact ih.ranges b hb

/-! ## Free runs -/

/-- The `n`-th aligned run of `2 ^ k` segments lies in front of the control
structure and meets no live block and no reserved range. -/
structure FreeRun (h : Heap) (reserved : List Block) (k n : ℕ) : Prop where
  inside : (h.alloc.block ⟨k, n⟩).range ⊆
    Set.Ico h.alloc.offset (h.alloc.offset + h.alloc.end_)
  live : ∀ b ∈ h.live, Disjoint b.range (h.alloc.block ⟨k, n⟩).range
  reserved : ∀ b ∈ reserved, Disjoint b.range (h.alloc.block ⟨k, n⟩).range

section

variable {s : Allocator}

/-- Nodes are apart exactly when their blocks share no address. -/
theorem apart_iff_disjoint {x y : Node} :
    Node.Apart x y ↔ Disjoint (s.block x).range (s.block y).range := by
  refine ⟨blocks_disjoint, fun hd => ?_⟩
  have hblock : 0 < blockSize := by decide
  -- comparable nodes share the first address of the smaller one
  have hshare : ∀ z w : Node, z ≤ w → (s.block z).start ∈ (s.block w).range := by
    intro z w hle
    refine mem_block_iff.mpr ⟨Nat.le_add_right _ _, ?_⟩
    rw [Allocator.block, Nat.add_sub_cancel_left, Nat.mul_div_cancel _ hblock]
    exact Node.leaves_mono hle (Node.first_mem_leaves z)
  refine ⟨fun hle => ?_, fun hle => ?_⟩
  · exact Set.disjoint_left.mp hd (hshare x x le_rfl) (hshare x y hle)
  · exact Set.disjoint_left.mp hd (hshare y x hle) (hshare y y le_rfl)

/-- A leaf is apart from a node that does not contain it. -/
theorem leaf_apart_iff {x z : Node} (hx : x.level = 0) :
    Node.Apart x z ↔ x.index ∉ z.leaves := by
  have hleaf : x = ⟨0, x.index⟩ := Node.ext hx rfl
  rw [Node.mem_leaves, ← hleaf]
  refine ⟨And.left, fun hle => ⟨hle, fun hzx => hle ?_⟩⟩
  have hz : z.level = x.level := le_antisymm (Node.level_mono hzx) (hx ▸ Nat.zero_le _)
  exact (Node.eq_of_le_of_level le_rfl hzx hz).ge

/-- A node meets a reserved range exactly when it contains one of the segments
of the range. -/
theorem segments_apart_iff {b : Block} (hb : s.offset ≤ b.start) (hsize : 1 ≤ b.size)
    {z : Node} :
    (∀ x ∈ s.segments b, Node.Apart x z) ↔ Disjoint b.range (s.block z).range := by
  have hblock : 0 < blockSize := by decide
  constructor
  · intro hap
    rw [Set.disjoint_left]
    rintro p ⟨hp₁, hp₂⟩ hpz
    have hmem := (mem_block_iff.mp hpz).2
    refine (leaf_apart_iff rfl).mp (hap ⟨0, (p - s.offset) / blockSize⟩ ⟨rfl, ?_, ?_⟩) hmem
    · exact Nat.div_le_div_right (by omega)
    · exact Nat.div_le_div_right (by omega)
  · rintro hd x ⟨hx₀, hx₁, hx₂⟩
    rw [leaf_apart_iff hx₀]
    intro hmem
    -- the first address of the range inside the segment
    obtain ⟨p, hp₁, hp₂, hp₃⟩ : ∃ p, b.start ≤ p ∧ p < b.start + b.size ∧
        s.offset ≤ p ∧ (p - s.offset) / blockSize = x.index := by
      rw [Nat.le_div_iff_mul_le hblock] at hx₂
      rcases le_total (s.offset + x.index * blockSize) b.start with hle | hle
      · refine ⟨b.start, le_rfl, by omega, hb, le_antisymm hx₁ ?_⟩
        rw [Nat.le_div_iff_mul_le hblock]
        omega
      · refine ⟨s.offset + x.index * blockSize, hle, by omega, Nat.le_add_right _ _, ?_⟩
        rw [Nat.add_sub_cancel_left, Nat.mul_div_cancel _ hblock]
    refine Set.disjoint_left.mp hd ⟨hp₁, hp₂⟩ (mem_block_iff.mpr ⟨hp₃.1, ?_⟩)
    rw [hp₃.2]
    exact hmem

/-- A node lies in front of the control structure exactly when it contains no
system segment. -/
theorem system_apart_iff {z : Node} (hz : z ≤ s.root) :
    (∀ x ∈ systemSegments s, Node.Apart x z) ↔
      (s.block z).range ⊆ Set.Ico s.offset (s.offset + s.end_) := by
  have hblock : 0 < blockSize := by decide
  have hstart : s.offset ≤ (s.block z).start := Nat.le_add_right _ _
  constructor
  · intro hap p hp
    have hend := block_end_le hz hap
    exact ⟨hstart.trans hp.1, hp.2.trans_le hend⟩
  · rintro hsub x ⟨hx₀, hx₁, -⟩
    rw [leaf_apart_iff hx₀]
    intro hmem
    -- the whole segment belongs to the node, and so does its last byte
    have hlast : s.offset + x.index * blockSize + (blockSize - 1) ∈ (s.block z).range := by
      refine mem_block_iff.mpr ⟨by omega, ?_⟩
      have he : s.offset + x.index * blockSize + (blockSize - 1) - s.offset =
          blockSize * x.index + (blockSize - 1) := by
        rw [Nat.mul_comm]
        omega
      rw [he, Nat.mul_add_div hblock, Nat.div_eq_of_lt (by omega), Nat.add_zero]
      exact hmem
    have hbound := (hsub hlast).2
    rw [Nat.div_le_iff_le_mul_add_pred hblock] at hx₁
    rw [Nat.mul_comm] at hbound
    omega

/-- A run in front of the control structure belongs to the tree. -/
theorem Layout.le_root_of_inside (h : Layout s) {k n : ℕ}
    (hsub : (s.block ⟨k, n⟩).range ⊆ Set.Ico s.offset (s.offset + s.end_)) :
    (⟨k, n⟩ : Node) ≤ s.root := by
  have hblock : 0 < blockSize := by decide
  have hp := Nat.two_pow_pos k
  have hpos : 0 < 2 ^ k * blockSize := Nat.mul_pos hp hblock
  have hlast : s.offset + n * 2 ^ k * blockSize + (2 ^ k * blockSize - 1) ∈
      (s.block ⟨k, n⟩).range := by
    rw [Block.range, Allocator.block, Set.mem_Ico]
    dsimp only
    omega
  have hbound := (hsub hlast).2
  have hend : (n + 1) * 2 ^ k ≤ s.end_ / blockSize := by
    rw [Nat.le_div_iff_mul_le hblock, Nat.add_mul, Nat.one_mul, Nat.add_mul]
    omega
  have hmax : (n + 1) * 2 ^ k ≤ 2 ^ s.maxTreeLevel := by
    refine (hend.trans ?_).trans h.blocks_le
    have hpos' := Nat.two_pow_pos (s.maxTreeLevel - 1)
    have hsize := h.end_eq
    exact Nat.div_le_div_right (by omega)
  have hk : k ≤ s.maxTreeLevel := by
    refine (Nat.pow_le_pow_iff_right (by decide : 1 < 2)).mp ?_
    exact (Nat.le_mul_of_pos_left _ (Nat.succ_pos n)).trans hmax
  refine le_root_iff.mpr ⟨hk, ?_⟩
  have he : 2 ^ s.maxTreeLevel = 2 ^ (s.maxTreeLevel - k) * 2 ^ k := by
    rw [← pow_add, Nat.sub_add_cancel hk]
  rw [he] at hmax
  exact Nat.le_of_mul_le_mul_right hmax hp

end

section

variable {h : Heap} {a : Holding} {reserved : List Block} {fixed : Set Node}

/-- In an arena away from address `0` every held node is a live block. -/
theorem Invariant.block_mem_live (hi : Invariant fixed h a) (hoffset : h.alloc.offset ≠ 0)
    {x : Node} (hx : x ∈ a.held) : h.alloc.block x ∈ h.live := by
  obtain ⟨leaked, hleaked, hperm⟩ := hi.simulates.blocks
  have hmem := hperm.mem_iff.mp (List.mem_map_of_mem hx)
  rcases List.mem_append.mp hmem with hlive | hleak
  · exact hlive
  · have hzero := hleaked _ hleak
    simp only [Allocator.block] at hzero
    omega

/-- The free runs are the nodes apart from everything taken. -/
theorem Invariant.freeRun_iff (hi : Invariant (h.alloc.fixed reserved) h a)
    (hlive : ∀ x ∈ a.held, h.alloc.block x ∈ h.live)
    (hranges : ∀ b ∈ reserved, h.alloc.offset ≤ b.start ∧ 1 ≤ b.size) {k n : ℕ} :
    FreeRun h reserved k n ↔
      (⟨k, n⟩ : Node) ≤ h.alloc.root ∧ Free (a.taken (h.alloc.fixed reserved)) ⟨k, n⟩ := by
  constructor
  · intro hf
    have hroot := hi.layout.le_root_of_inside hf.inside
    refine ⟨hroot, ?_⟩
    rintro x ((hx | ⟨b, hb, hx⟩) | hx)
    · exact (system_apart_iff hroot).mpr hf.inside x hx
    · obtain ⟨hstart, hsize⟩ := hranges b hb
      exact (segments_apart_iff hstart hsize).mpr (hf.reserved b hb) x hx
    · exact apart_iff_disjoint.mpr (hf.live _ (hlive x hx))
  · rintro ⟨hroot, hfree⟩
    refine ⟨?_, ?_, ?_⟩
    · exact (system_apart_iff hroot).mp fun x hx => hfree x (Or.inl (Or.inl hx))
    · intro b hb
      obtain ⟨x, hx, rfl⟩ := hi.simulates.exists_node hb
      exact apart_iff_disjoint.mp (hfree x (Or.inr hx))
    · intro b hb
      obtain ⟨hstart, hsize⟩ := hranges b hb
      exact (segments_apart_iff hstart hsize).mp fun x hx =>
        hfree x (Or.inl (Or.inr ⟨b, hb, hx⟩))

end

/-! ## Refusals -/

/-- What `kmalloc` promises: it returns, it returns null exactly when no run of
the requested length is free, and otherwise it returns the address of such a
run. -/
def Contract (frames : ℕ) (h : Heap) (reserved : List Block) (size : ℕ) : Prop :=
  ∃ r s', kmalloc frames h.alloc size = some (r, s') ∧
    (r = 0 ↔ ¬ ∃ n, FreeRun h reserved (levelFor size) n) ∧
    (r ≠ 0 → ∃ n, FreeRun h reserved (levelFor size) n ∧
      r = (h.alloc.block ⟨levelFor size, n⟩).start)

/-- An arena that was booted and used, as the tree records it. -/
structure Recorded (h : Heap) (reserved : List Block) (a : Holding) : Prop where
  invariant : Invariant (h.alloc.fixed reserved) h a
  exact : Exact h.alloc.tree h.alloc.root (a.taken (h.alloc.fixed reserved))
  offset_ne : h.alloc.offset ≠ 0
  ranges : ∀ b ∈ reserved, h.alloc.offset ≤ b.start ∧ 1 ≤ b.size

theorem Booted.recorded {s : Allocator} {reserved : List Block} {frames : ℕ} {h : Heap}
    (hb : Booted s reserved) (hrun : ReflTransGen (Step frames) ⟨s, []⟩ h) :
    ∃ a, Recorded h reserved a := by
  have hboot := hb.invariant
  have hfixed := fixed_antichain s reserved
  have hsub : systemSegments s ⊆ s.fixed reserved := Set.subset_union_left
  have hstart := Invariant.start hboot.layout hsub hboot.le_root
    (hboot.exact.settled hfixed)
  obtain ⟨a, ha⟩ := hstart.run hrun
  have hexact := ha.exact hstart hfixed (by rw [taken_nil]; exact hboot.exact)
  have hinv := ha.invariant
  have hsame : Same s h.alloc := ha.same
  rw [← hsame.fixed_eq] at hexact hinv
  have hoffset : h.alloc.offset = s.offset := by
    obtain ⟨m, hm⟩ := hsame
    rw [hm]
  exact ⟨a, hinv, hexact, hoffset ▸ hboot.offset_ne, hoffset ▸ hboot.ranges⟩

section

variable {h : Heap} {a : Holding} {reserved : List Block} {frames size : ℕ}

theorem Recorded.freeRun_iff (hr : Recorded h reserved a) {k n : ℕ} :
    FreeRun h reserved k n ↔
      (⟨k, n⟩ : Node) ≤ h.alloc.root ∧ Free (a.taken (h.alloc.fixed reserved)) ⟨k, n⟩ :=
  hr.invariant.freeRun_iff (fun _ hx => hr.invariant.block_mem_live hr.offset_ne hx) hr.ranges

/-- A bit of the root mask is clear exactly when a run of that length is
free. -/
theorem Recorded.testBit_root_iff (hr : Recorded h reserved a) {k : ℕ}
    (hk : k ≤ h.alloc.maxTreeLevel) :
    (h.alloc.tree h.alloc.root).testBit k = false ↔ ∃ n, FreeRun h reserved k n := by
  have hroot : (⟨k + (h.alloc.maxTreeLevel - k), 0⟩ : Node) = h.alloc.root := by
    rw [Nat.add_sub_cancel' hk]
    rfl
  have hbit := hr.exact.testBit_iff (hr.invariant.sound.antichain (fixed_antichain _ _))
    hr.invariant.layout.tree_bounded (k := k) (h.alloc.maxTreeLevel - k) 0 hroot.le
    (fun x hx => hroot ▸ not_lt_of_ge (hr.invariant.sound.le_root x hx))
  rw [hroot] at hbit
  rw [hbit]
  constructor
  · rintro ⟨⟨l, n⟩, rfl, hle, hfree⟩
    exact ⟨n, hr.freeRun_iff.mpr ⟨hle, hfree⟩⟩
  · rintro ⟨n, hn⟩
    obtain ⟨hle, hfree⟩ := hr.freeRun_iff.mp hn
    exact ⟨⟨k, n⟩, rfl, hle, hfree⟩

/-- Requests within the tree are answered as promised. -/
theorem Recorded.contract_of_serves (hr : Recorded h reserved a)
    (hdeep : h.alloc.maxTreeLevel < frames) (hsize : h.alloc.Serves size) :
    Contract frames h reserved size := by
  have hlevel := hsize.level_le hr.invariant.layout
  have hkmalloc := kmalloc_eq hr.invariant.layout.le_twentyTwo frames hlevel
  rw [hsize.level_eq] at hlevel hkmalloc
  have hfree := hr.testBit_root_iff hlevel
  by_cases hbit : (h.alloc.tree h.alloc.root).testBit (levelFor size) = false
  · rw [if_neg (by simp [hbit]), if_pos (by omega)] at hkmalloc
    have hne : (h.alloc.block (h.alloc.choice (levelFor size))).start ≠ 0 := by
      have := hr.offset_ne
      simp only [Allocator.block]
      omega
    have hrun : FreeRun h reserved (levelFor size) (h.alloc.choice (levelFor size)).index :=
      hr.freeRun_iff.mpr
        ⟨choice_le_root hlevel, hr.invariant.layout.choice_apart hr.invariant.taken_le_root
          hr.invariant.settled hlevel hbit⟩
    refine ⟨_, _, hkmalloc, ⟨fun hzero => absurd hzero hne, fun hno => ?_⟩, fun _ => ?_⟩
    · exact absurd ⟨_, hrun⟩ hno
    · exact ⟨_, hrun, rfl⟩
  · rw [if_pos (by simpa using hbit)] at hkmalloc
    exact ⟨_, _, hkmalloc, ⟨fun _ => mt hfree.mpr hbit, fun _ => rfl⟩, fun hne => absurd rfl hne⟩

/-- A request beyond the root of the tree makes the search run below the
leaves, and `kmalloc` does not return. -/
theorem Layout.kmalloc_eq_none {s : Allocator} (hl : Layout s)
    (hstack : 4 * frames ≤ 2 ^ 32) (hlevel : s.maxTreeLevel < requestLevel size) :
    kmalloc frames s size = none := by
  have hmax := requestLevel_le_twentyTwo size
  have hbit : (getTreeElement s s.maxTreeLevel 0).testBit (requestLevel size) = false := by
    refine Nat.testBit_lt_two_pow ((hl.tree_bounded s.root le_rfl).trans_le ?_)
    exact Nat.pow_le_pow_right (by decide) hlevel
  have hnone : allocate s (1 <<< requestLevel size) (requestLevel size) frames
      s.maxTreeLevel 0 = none := by
    exact allocate_eq_none _ _ _ (by omega) (by omega) (by omega)
  unfold kmalloc
  dsimp only
  rw [if_neg (by rw [ne_eq, not_not]; exact and_shiftLeft_one_eq_zero_iff.mpr hbit), hnone]

/-- A request beyond the leaves lies beyond the root. -/
theorem Layout.lt_requestLevel {s : Allocator} (hl : Layout s) (hpos : 1 ≤ size)
    (hword : size < 2 ^ 32) (hsize : ¬ size ≤ (s.treeLevels 0).size * blockSize) :
    s.maxTreeLevel < requestLevel size := by
  have hleaves := hl.size_eq 0 (Nat.zero_le _)
  rw [Nat.sub_zero] at hleaves
  rw [requestLevel_eq hpos hword]
  by_contra hle
  rw [Nat.not_lt, levelFor_le_iff, ← hleaves] at hle
  exact hsize hle

/-- A request of zero bytes asks for the whole of the largest tree; the control
structure occupies a segment, so the root is not free. -/
theorem Invariant.kmalloc_zero {fixed : Set Node} (hi : Invariant fixed h a) (frames : ℕ)
    (hmax : h.alloc.maxTreeLevel = 22) : kmalloc frames h.alloc 0 = some (0, h.alloc) := by
  have hl := hi.layout
  have hlast : (⟨0, 2 ^ 22 - 1⟩ : Node) ∈ systemSegments h.alloc := by
    have hfits := hl.fits
    have hend := hl.end_eq
    rw [hmax] at hend
    refine ⟨rfl, ?_, ?_⟩
    · unfold blockSize
      simp only
      omega
    · rw [hmax]
  have htop := hi.settled.testBit_top hl.tree_bounded (Or.inl (hi.fixed_eq hlast))
    (systemSegments_le_root _ _ hlast) le_rfl
  have hlevel : requestLevel 0 ≤ h.alloc.maxTreeLevel := by rw [requestLevel_zero, hmax]
  have hkmalloc := kmalloc_eq hl.le_twentyTwo frames hlevel
  rwa [requestLevel_zero, if_pos (by rw [← hmax]; exact htop)] at hkmalloc

/-- A request of zero bytes is served only by the largest trees, where it asks
for the whole tree; that is never free. -/
theorem Recorded.contract_zero_iff (hr : Recorded h reserved a)
    (hstack : 4 * frames ≤ 2 ^ 32) :
    Contract frames h reserved 0 ↔
      h.alloc.maxTreeLevel = 22 ∧ ∀ n, ¬ FreeRun h reserved 0 n := by
  have hl := hr.invariant.layout
  have hzero : levelFor 0 = 0 := by
    exact Nat.le_zero.mp (levelFor_le_iff.mpr (Nat.zero_le _))
  rw [Contract, hzero]
  rcases eq_or_lt_of_le hl.le_twentyTwo with hmax | hmax
  · rw [hr.invariant.kmalloc_zero frames hmax]
    constructor
    · rintro ⟨r, s', hcall, hnone, -⟩
      cases hcall
      exact ⟨hmax, fun n hn => hnone.mp rfl ⟨n, hn⟩⟩
    · rintro ⟨-, hno⟩
      exact ⟨0, h.alloc, rfl, ⟨fun _ ⟨n, hn⟩ => hno n hn, fun _ => rfl⟩, fun hne => absurd rfl hne⟩
  · have hlevel : h.alloc.maxTreeLevel < requestLevel 0 := by rwa [requestLevel_zero]
    have hnone := hl.kmalloc_eq_none hstack hlevel
    rw [hnone]
    constructor
    · rintro ⟨r, s', hcall, -⟩
      cases hcall
    · rintro ⟨hcon, -⟩
      omega

end

theorem smallArena_booted : Booted smallArena [] :=
  .kset _ _ (by decide) (by decide) (by decide)

end Neos.Kmalloc
