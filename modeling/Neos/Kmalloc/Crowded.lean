import Mathlib.Algebra.BigOperators.Group.List.Basic
import Neos.Kmalloc.Overlap

/-!
# The clients of an arena with overlapping tables

Freeing a block can leave a bit behind, and after that one segment may be handed out twice.
The blocks in a pair of leaves have at most as many segments as the pair has set bits all
the same, so `krealloc` finds a set bit above every block.
-/

namespace Neos.Kmalloc

open BitMemory BuddyTree

/-- The number of segments of the nodes in a pair. -/
def weight (nodes : List Node) (k : ℕ) : ℕ :=
  (nodes.map fun x => if pairOf x = k then 2 ^ x.level else 0).sum

/-- The blocks of an arena with overlapping tables are nodes below the root, and each pair
has room for those in it. -/
structure Crowded (h : Heap) (nodes : List Node) : Prop where
  overlapping : Overlapping h.alloc
  sorted : h.alloc.Sorted
  rooted : h.alloc.Rooted
  blocks : (nodes.map h.alloc.block).Perm h.live
  small : ∀ x ∈ nodes, x.level < h.alloc.maxTreeLevel ∧ x ≤ h.alloc.root
  room : ∀ k < 2, weight nodes k ≤ h.alloc.ones k

section

variable {h : Heap} {nodes : List Node} {x : Node} {frames size r pointer : ℕ}
  {s s' : Allocator}

theorem weight_cons (x : Node) (nodes : List Node) (k : ℕ) :
    weight (x :: nodes) k = (if pairOf x = k then 2 ^ x.level else 0) + weight nodes k := by
  rw [weight, List.map_cons, List.sum_cons, weight]

theorem weight_erase (hx : x ∈ nodes) (k : ℕ) :
    (if pairOf x = k then 2 ^ x.level else 0) + weight (nodes.erase x) k = weight nodes k :=
  List.sum_map_erase (fun x => if pairOf x = k then 2 ^ x.level else 0) hx

/-- The bytes in front of the end of the tree are numbered from its start. -/
theorem segmentOf_add {y : ℕ} (hy : y < 2 ^ 32) : segmentOf s (s.offset + y) = y / blockSize := by
  unfold segmentOf
  congr 1
  omega

/-- A pointer into a block is the start of the arena plus a number of bytes below the
size of the tree. -/
theorem exists_offset (hx : x ≤ s.root) (hp : pointer ∈ (s.block x).range) :
    ∃ y < 2 ^ s.maxTreeLevel * blockSize, pointer = s.offset + y ∧
      x.index = y / blockSize / 2 ^ x.level := by
  obtain ⟨hlow, hhigh⟩ := hp
  simp only [Allocator.block] at hlow hhigh
  obtain ⟨hlevel, hindex⟩ := le_root_iff.mp hx
  have hpow : 2 ^ (s.maxTreeLevel - x.level) * 2 ^ x.level = 2 ^ s.maxTreeLevel := by
    rw [← pow_add, Nat.sub_add_cancel hlevel]
  have hend : (x.index + 1) * 2 ^ x.level * blockSize ≤ 2 ^ s.maxTreeLevel * blockSize := by
    rw [← hpow]
    exact Nat.mul_le_mul_right _ (Nat.mul_le_mul_right _ hindex)
  have hnext : (x.index + 1) * 2 ^ x.level * blockSize =
      x.index * 2 ^ x.level * blockSize + 2 ^ x.level * blockSize := by
    rw [Nat.add_mul, Nat.add_mul, Nat.one_mul]
  refine ⟨pointer - s.offset, by omega, by omega, ?_⟩
  rw [Nat.div_div_eq_div_mul, Nat.mul_comm blockSize]
  symm
  refine Nat.div_eq_of_lt_le ?_ ?_
  · rw [← Nat.mul_assoc]
    omega
  · rw [← Nat.mul_assoc]
    omega

theorem Crowded.lt_word (hc : Crowded h nodes) {y : ℕ}
    (hy : y < 2 ^ h.alloc.maxTreeLevel * blockSize) : y < 2 ^ 32 := by
  have hpow : 2 ^ h.alloc.maxTreeLevel ≤ 2 ^ 2 :=
    Nat.pow_le_pow_right (by decide) hc.overlapping.le_two
  have hbytes := hy.trans_le (Nat.mul_le_mul_right blockSize hpow)
  exact hbytes.trans (by decide)

/-- A pointer into a block lies in a segment of its node. -/
theorem Crowded.segmentOf_le (hc : Crowded h nodes) (hx : x ∈ nodes)
    (hp : pointer ∈ (h.alloc.block x).range) :
    (⟨0, segmentOf h.alloc pointer⟩ : Node) ≤ x := by
  obtain ⟨y, hy, rfl, hindex⟩ := exists_offset (hc.small x hx).2 hp
  rw [segmentOf_add (hc.lt_word hy)]
  exact ⟨Nat.zero_le _, hindex.symm⟩

theorem Crowded.segment_lt (hc : Crowded h nodes) (hx : x ∈ nodes)
    (hp : pointer ∈ (h.alloc.block x).range) :
    segmentOf h.alloc pointer < 2 ^ h.alloc.maxTreeLevel := by
  have hroot := (hc.segmentOf_le hx hp).trans (hc.small x hx).2
  exact (le_root_iff.mp hroot).2

/-- The segment and its node lie in the same pair. -/
theorem Crowded.pairOf_eq (hc : Crowded h nodes) (hx : x ∈ nodes)
    (hp : pointer ∈ (h.alloc.block x).range) : pairOf x = segmentOf h.alloc pointer / 2 := by
  have hindex : segmentOf h.alloc pointer / 2 ^ (x.level - 0) = x.index :=
    (hc.segmentOf_le hx hp).2
  have hlevel := (hc.small x hx).1
  have hle := hc.overlapping.le_two
  rw [Nat.sub_zero] at hindex
  rw [pairOf, ← hindex]
  rcases (by omega : x.level = 0 ∨ x.level = 1) with hl | hl <;> rw [hl] <;> omega

theorem Crowded.pairOf_lt (hc : Crowded h nodes) (hx : x ∈ nodes) : pairOf x < 2 := by
  obtain ⟨hlevel, hroot⟩ := hc.small x hx
  have hindex := (le_root_iff.mp hroot).2
  have hle := hc.overlapping.le_two
  have hpow : 2 ^ (h.alloc.maxTreeLevel - x.level) * 2 ^ x.level ≤ 2 ^ 2 := by
    rw [← pow_add]
    exact Nat.pow_le_pow_right (by decide) (by omega)
  have hmul := Nat.mul_lt_mul_of_pos_right hindex (Nat.two_pow_pos x.level)
  rw [pairOf]
  omega

/-! ## Calls -/

/-- `kfree` makes room for one segment less than it takes away. -/
theorem Crowded.free (hc : Crowded h nodes) (hx : x ∈ nodes)
    (hp : pointer ∈ (h.alloc.block x).range) :
    Crowded ⟨kfree h.alloc pointer, h.live.erase (h.alloc.block x)⟩ (nodes.erase x) := by
  have hsame := kfree_same h.alloc pointer
  have hblock : (kfree h.alloc pointer).block = h.alloc.block := funext hsame.block_eq
  obtain ⟨hsorted, hrooted, hones⟩ :=
    hc.overlapping.kfree_settled hc.sorted (hc.segment_lt hx hp)
  refine ⟨hc.overlapping.same hsame, hsorted, hrooted, ?_, fun z hz => ?_, fun k hk => ?_⟩
  · rw [hblock, List.map_erase (block_injective _)]
    exact hc.blocks.erase _
  · have hsmall := hc.small z (List.mem_of_mem_erase hz)
    rw [hsame.root_eq]
    exact ⟨by obtain ⟨m, hm⟩ := hsame; rw [hm]; exact hsmall.1, hsmall.2⟩
  · have hroom := hc.room k hk
    have hleast := hones k hk
    have hpos := Nat.two_pow_pos x.level
    rw [← weight_erase hx, hc.pairOf_eq hx hp] at hroom
    by_cases hpair : segmentOf h.alloc pointer / 2 = k
    · rw [if_pos hpair] at hroom
      rw [if_pos hpair.symm] at hleast
      dsimp only
      omega
    · rw [if_neg hpair] at hroom
      rw [if_neg fun heq => hpair heq.symm] at hleast
      dsimp only
      omega

/-- Reserving a node for which there is room. -/
theorem Crowded.take (hc : Crowded h nodes) (hlevel : x.level < h.alloc.maxTreeLevel)
    (hroot : x ≤ h.alloc.root) (hsame : Same h.alloc s') (hsorted : s'.Sorted)
    (hrooted : s'.Rooted)
    (hones : ∀ k < 2, s'.ones k = h.alloc.ones k + if pairOf x = k then 2 ^ x.level else 0) :
    Crowded ⟨s', h.alloc.block x :: h.live⟩ (x :: nodes) := by
  have hblock : s'.block = h.alloc.block := funext hsame.block_eq
  have hmax : s'.maxTreeLevel = h.alloc.maxTreeLevel := by
    obtain ⟨m, rfl⟩ := hsame
    rfl
  refine ⟨hc.overlapping.same hsame, hsorted, hrooted, ?_, ?_, fun k hk => ?_⟩
  · rw [hblock, List.map_cons]
    exact hc.blocks.cons _
  · rw [hsame.root_eq, hmax]
    rintro z (_ | ⟨_, hz⟩)
    · exact ⟨hlevel, hroot⟩
    · exact hc.small z hz
  · have hroom := hc.room k hk
    rw [weight_cons, hones k hk]
    omega

/-- A request that finds room takes a node. -/
theorem Crowded.malloc (hc : Crowded h nodes) (hlt : requestLevel size < h.alloc.maxTreeLevel)
    (hroom : ¬ h.alloc.Refuses size) (hcall : kmalloc frames h.alloc size = some (r, s')) :
    ∃ y : Node, y ≤ h.alloc.root ∧ h.alloc.block y = ⟨r, 2 ^ requestLevel size * blockSize⟩ ∧
      Same h.alloc s' ∧ Crowded ⟨s', h.alloc.block y :: h.live⟩ (y :: nodes) := by
  rw [refuses_iff, Bool.not_eq_true] at hroom
  have hmax := hc.overlapping.shaped.le_twentyTwo
  rw [kmalloc_eq hmax frames hlt.le, hroom, if_neg (by decide)] at hcall
  split at hcall
  · cases hcall
    obtain ⟨hsorted, hrooted, hones⟩ :=
      hc.overlapping.reserve_choice hc.sorted hc.rooted hlt hroom
    have hroot := choice_le_root (s := h.alloc) hlt.le
    have hsame : Same h.alloc
        (reserve h.alloc (requestLevel size) (h.alloc.choice (requestLevel size)).index) :=
      reserve_same _ _ _
    exact ⟨_, hroot, rfl, hsame, hc.take hlt hroot hsame hsorted hrooted hones⟩
  · cases hcall

theorem Crowded.areaLevel_le (hc : Crowded h nodes) (hx : x ∈ nodes) :
    ∃ l ≤ 1, areaLevel h.alloc (segmentOf h.alloc (h.alloc.block x).start) = some l := by
  have hstart := start_mem_range h.alloc x
  have hk := hc.pairOf_lt hx
  have hroom := hc.room _ hk
  have hpos := Nat.two_pow_pos x.level
  rw [← weight_erase hx, if_pos rfl, Allocator.ones] at hroom
  have hset : h.alloc.leafBit (2 * pairOf x) = true := by
    by_contra hclear
    rw [Bool.not_eq_true] at hclear
    cases hsecond : h.alloc.leafBit (2 * pairOf x + 1) with
    | false =>
        rw [hclear, hsecond, Bool.toNat_false] at hroom
        omega
    | true =>
        rw [hc.sorted _ hk hsecond] at hclear
        cases hclear
  have hmask : h.alloc.tree ⟨1, pairOf x⟩ ≠ 0 := fun hzero => by
    rw [((hc.overlapping.pair_eq_zero_iff hk).mp hzero).1] at hset
    cases hset
  have hleaf : (⟨0, segmentOf h.alloc (h.alloc.block x).start⟩ : Node) ≤ ⟨1, pairOf x⟩ := by
    refine ⟨Nat.zero_le _, ?_⟩
    rw [hc.pairOf_eq hx hstart]
    rfl
  obtain ⟨l, hl, hle⟩ := areaLevelLoop_le hmask 32 0 _ hleaf (by simp only; omega)
  exact ⟨l, hle, hl⟩

/-- Memory outside the tables does not matter. -/
theorem Crowded.memory (hc : Crowded h nodes) {m : Memory}
    (hm : ∀ k < h.alloc.maxTreeLevel, m (wrap ((h.alloc.treeLevels 0).pointer + k)) =
      h.alloc.mem (wrap ((h.alloc.treeLevels 0).pointer + k))) :
    Crowded ⟨{ h.alloc with mem := m }, h.live⟩ nodes := by
  have hsame : Same h.alloc { h.alloc with mem := m } := ⟨m, rfl⟩
  have hleaf : ∀ j < 4, Allocator.leafBit { h.alloc with mem := m } j = h.alloc.leafBit j := by
    intro j hj
    have hbyte : (8 * (h.alloc.treeLevels 0).pointer + j) / 8 =
        (h.alloc.treeLevels 0).pointer + 0 := by omega
    change bit m (8 * (h.alloc.treeLevels 0).pointer + j) =
      bit h.alloc.mem (8 * (h.alloc.treeLevels 0).pointer + j)
    rw [bit, bit, load, load, hbyte, hm 0 hc.overlapping.one_le]
  refine ⟨hc.overlapping.same hsame, fun k hk => ?_, fun htop l hl => ?_, hc.blocks, hc.small,
    fun k hk => ?_⟩
  · rw [hleaf _ (by omega), hleaf _ (by omega)]
    exact hc.sorted k hk
  · have hroot : (getTreeElement { h.alloc with mem := m } 2 0).testBit l =
        (getTreeElement h.alloc 2 0).testBit l := by
      have hbyte : (elementBit h.alloc 2 0 + (2 - l)) / 8 =
          (h.alloc.treeLevels 0).pointer + 1 := by
        rw [elementBit, hc.overlapping.pointer_two htop]
        omega
      have hmem := hm 1 (htop ▸ by decide)
      rw [← hbyte] at hmem
      rw [testBit_getTreeElement _ (by decide) (by decide),
        testBit_getTreeElement _ (by decide) (by decide)]
      change (_ && bit m (elementBit h.alloc 2 0 + (2 - l))) = _
      rw [bit, bit, load, load, hmem]
    rw [hroot, hleaf _ (by omega), hleaf _ (by omega)]
    exact hc.rooted htop l hl
  · have hones : Allocator.ones { h.alloc with mem := m } k = h.alloc.ones k := by
      rw [Allocator.ones, Allocator.ones, hleaf _ (by omega), hleaf _ (by omega)]
    rw [hones]
    exact hc.room k hk

/-- The tables lie outside every block. -/
theorem Crowded.wrap_ne (hc : Crowded h nodes) (hx : x ≤ h.alloc.root) {a : ℕ}
    (ha : a ∈ (h.alloc.block x).range) {k : ℕ} (hk : k < h.alloc.maxTreeLevel) :
    wrap ((h.alloc.treeLevels 0).pointer + k) ≠ wrap a := by
  obtain ⟨y, hy, rfl, -⟩ := exists_offset hx ha
  exact (hc.overlapping.apart y hy k hk).symm

theorem Crowded.write (hc : Crowded h nodes) (hx : x ∈ nodes) {w : ℕ}
    (hw : w ∈ (h.alloc.block x).range) (v : ℕ) :
    Crowded ⟨{ h.alloc with mem := store h.alloc.mem w v }, h.live⟩ nodes :=
  hc.memory fun _ hk => store_of_ne (hc.wrap_ne (hc.small x hx).2 hw hk)

/-- The copy into a block of level 1. -/
theorem Crowded.copy (hc : Crowded h nodes) (hx : x ≤ h.alloc.root) (pointer level : ℕ)
    (hlevel : level ≤ x.level) :
    Crowded ⟨(reallocReturn h.alloc pointer level (h.alloc.block x).start).2, h.live⟩ nodes := by
  refine hc.memory fun k hk => memmove_frame _ _ _ _ fun j hj => hc.wrap_ne hx ⟨?_, ?_⟩ hk
  · omega
  · have hpow : 2 ^ level ≤ 2 ^ x.level := Nat.pow_le_pow_right (by decide) hlevel
    have hmax := (le_root_iff.mp hx).1
    have hfour : 2 ^ x.level ≤ 2 ^ 2 :=
      Nat.pow_le_pow_right (by decide) (hmax.trans hc.overlapping.le_two)
    have hbytes : 2 ^ level * blockSize ≤ 2 ^ x.level * blockSize := Nat.mul_le_mul_right _ hpow
    have hsmall : 2 ^ level * blockSize < 2 ^ 31 := by
      unfold blockSize
      omega
    rw [toInt_of_lt hsmall] at hj
    simp only [Allocator.block]
    omega

/-- Moving a block to the free pair around it. -/
theorem Crowded.takePair (hc : Crowded h nodes) (htop : h.alloc.maxTreeLevel = 2) {k : ℕ}
    (hk : k < 2) (hzero : h.alloc.tree ⟨1, k⟩ = 0) :
    Crowded ⟨reserve h.alloc 1 k, h.alloc.block ⟨1, k⟩ :: h.live⟩ (⟨1, k⟩ :: nodes) := by
  have hclear := ((hc.overlapping.pair_eq_zero_iff hk).mp hzero).1
  obtain ⟨hsorted, hrooted, hones⟩ := hc.overlapping.reserve_pair hc.sorted htop hk hclear
  have hroot : (⟨1, k⟩ : Node) ≤ h.alloc.root := le_root_iff.mpr (by simp only [htop]; omega)
  refine hc.take (by simp only; omega) hroot (reserve_same _ _ _) hsorted hrooted fun j hj => ?_
  rw [hones j hj, pairOf, pow_one, Nat.mul_div_cancel _ (by decide)]
  simp only [eq_comm]

/-- `krealloc` of a block that is too small. -/
theorem Crowded.reallocMove (hc : Crowded h nodes) (hx : x ∈ nodes) {l : ℕ}
    (hl : areaLevel h.alloc (segmentOf h.alloc (h.alloc.block x).start) = some l)
    (hlt : l < requestLevel size) (hlevel : requestLevel size < h.alloc.maxTreeLevel)
    (hroom : ¬ h.alloc.RefusesMove (h.alloc.block x).start size)
    (hcall : krealloc frames h.alloc (h.alloc.block x).start size = some (r, s')) :
    ∃ nodes', Crowded ⟨s', ⟨r, 2 ^ requestLevel size * blockSize⟩ ::
      h.live.erase (h.alloc.block x)⟩ nodes' := by
  have hstart := start_mem_range h.alloc x
  have hfree := hc.free hx hstart
  have hsame := kfree_same h.alloc (h.alloc.block x).start
  have hseg := hc.segment_lt hx hstart
  have htop := hc.overlapping.le_two
  rcases krealloc_cases hl hcall with ⟨hle, -, -⟩ | ⟨-, hcases⟩
  · omega
  set pointer := (h.alloc.block x).start
  set q := segmentOf h.alloc pointer
  set s₁ := kfree h.alloc pointer
  have hmax : s₁.maxTreeLevel = h.alloc.maxTreeLevel := by
    obtain ⟨m, hm⟩ := hsame
    rw [hm]
  have hmalloc : s₁.tree ⟨requestLevel size, q / 2 ^ requestLevel size⟩ ≠ 0 →
      ¬ s₁.Refuses size := by
    intro htaken hfull
    refine hroom ⟨?_, hfull⟩
    rw [Nat.shiftRight_eq_div_pow]
    exact htaken
  rcases hcases with ⟨hzero, hr, hs'⟩ | ⟨htaken, hr, hcall'⟩ | ⟨htaken, -, s₂, hcall', hs'⟩
  · -- the pair around the block is free now
    have hone : requestLevel size = 1 := by omega
    have htwo : h.alloc.maxTreeLevel = 2 := by omega
    have hpair : q / 2 < 2 := by
      have hfour : 2 ^ h.alloc.maxTreeLevel ≤ 2 ^ 2 := Nat.pow_le_pow_right (by decide) htop
      omega
    rw [hone, pow_one] at hzero hr hs'
    have htake := hfree.takePair (hmax.trans htwo) hpair hzero
    have hsame' : Same s₁ (reserve s₁ 1 (q / 2)) := reserve_same _ _ _
    have hroot : (⟨1, q / 2⟩ : Node) ≤ (reserve s₁ 1 (q / 2)).root := by
      rw [hsame'.root_eq]
      exact le_root_iff.mpr (by simp only [hmax, htwo]; omega)
    have hcopy := htake.copy hroot pointer l (by simp only; omega)
    dsimp only at hcopy
    rw [hsame'.block_eq, ← hr, ← hs'] at hcopy
    have hblock : s₁.block ⟨1, q / 2⟩ = ⟨r, 2 ^ requestLevel size * blockSize⟩ := by
      rw [hone, hr]
      rfl
    exact ⟨_, hblock ▸ hcopy⟩
  · rw [hr]
    obtain ⟨y, -, hblock, -, htake⟩ := hfree.malloc (hmax ▸ hlevel) (hmalloc htaken) hcall'
    exact ⟨_, hblock ▸ htake⟩
  · obtain ⟨y, hroot, hblock, hsame', htake⟩ :=
      hfree.malloc (hmax ▸ hlevel) (hmalloc htaken) hcall'
    have hsize : 2 ^ y.level * blockSize = 2 ^ requestLevel size * blockSize :=
      congrArg Block.size hblock
    have hylevel : y.level = requestLevel size :=
      Nat.pow_right_injective le_rfl (Nat.eq_of_mul_eq_mul_right (by decide) hsize)
    have hcopy := htake.copy (x := y) (hsame'.root_eq ▸ hroot) pointer l (by omega)
    dsimp only at hcopy hblock
    rw [hsame'.block_eq, hblock, ← hs'] at hcopy
    exact ⟨_, hcopy⟩

/-- The order of the blocks does not matter. -/
theorem Crowded.perm (hc : Crowded h nodes) {live : List Block} (hperm : h.live.Perm live) :
    Crowded ⟨h.alloc, live⟩ nodes :=
  ⟨hc.overlapping, hc.sorted, hc.rooted, hc.blocks.trans hperm, hc.small, hc.room⟩

theorem Crowded.exists_node (hc : Crowded h nodes) {b : Block} (hb : b ∈ h.live) :
    ∃ x ∈ nodes, h.alloc.block x = b :=
  List.mem_map.mp (hc.blocks.mem_iff.mpr hb)

end

/-! ## Setting up -/

section

variable {s₀ : Allocator} {size offset m : ℕ}

theorem zeroLoop_start {x : ℕ} :
    ∀ (count : ℕ) (mem : Memory) (edi : ℕ), x = wrap edi ∨ mem x = 0 →
      zeroLoop count mem edi x = 0
  | 0, mem, edi, h => by
      by_cases hx : x = wrap edi
      · simp [zeroLoop, store, hx]
      · rw [zeroLoop, store_of_ne hx]
        exact h.resolve_left hx
  | count + 1, mem, edi, h => by
      refine zeroLoop_start count _ _ (Or.inr ?_)
      exact zeroLoop_start 0 mem edi h

/-- The number of leaves that `kset` chooses. -/
theorem exists_leaves (hlt : size < 2 ^ 32) :
    ∃ m, 1 ≤ m ∧ m ≤ 22 ∧ leafLoop 32 1 (size / blockSize) = 2 ^ m ∧ size / blockSize ≤ 2 ^ m ∧
      (m = 1 ∨ 2 ^ (m - 1) < size / blockSize) := by
  have hblocks : size / blockSize < 2 ^ 22 := by
    unfold blockSize
    omega
  rcases Nat.lt_or_ge 1 (size / blockSize) with hmany | hfew
  · obtain ⟨m, hm, hpos, hlow, hhigh⟩ := leafLoop_spec 32 0 hmany (by omega)
    have h₂₂ : m - 1 < 22 := (Nat.pow_lt_pow_iff_right (by decide)).mp (hlow.trans hblocks)
    exact ⟨m, hpos, by omega, hm, hhigh, Or.inr hlow⟩
  · refine ⟨1, le_rfl, by decide, ?_, by omega, Or.inl rfl⟩
    rw [leafLoop]
    exact if_neg (by omega)

/-- The control structure lies behind the segments of the tree, so that `kset` marks
none of them. -/
def Unmarked (size : ℕ) : Prop :=
  size = 0 ∨
    leafLoop 32 1 (size / blockSize) * blockSize + leafLoop 32 1 (size / blockSize) / 2 ≤ size

/-- The end of the segments, as `kset` computes it. -/
theorem end_of_leaves (hlt : size < 2 ^ 32) (hm : leafLoop 32 1 (size / blockSize) = 2 ^ m)
    (hpos : 1 ≤ m) (hlow : m = 1 ∨ 2 ^ (m - 1) < size / blockSize) :
    ((2 ^ m - 1) >>> 1 + 1 = 2 ^ (m - 1)) ∧
      (2 ^ m ≤ (size + 2 ^ 32 - 2 ^ (m - 1)) % 2 ^ 32 / blockSize ↔ Unmarked size) := by
  have hdouble : 2 ^ m = 2 * 2 ^ (m - 1) := by
    rw [← pow_succ', Nat.sub_add_cancel hpos]
  have hhalf := Nat.two_pow_pos (m - 1)
  refine ⟨?_, ?_⟩
  · rw [Nat.shiftRight_eq_div_pow]
    omega
  rw [Unmarked, hm, Nat.le_div_iff_mul_le (by decide)]
  rcases Nat.eq_zero_or_pos size with hzero | hsome
  · subst hzero
    have hone : m = 1 := hlow.resolve_right (by simp)
    subst hone
    decide
  · have hle : 2 ^ (m - 1) ≤ size := by
      rcases hlow with rfl | hlow
      · exact hsome
      · exact hlow.le.trans (Nat.div_le_self _ _)
    have hend : (size + 2 ^ 32 - 2 ^ (m - 1)) % 2 ^ 32 = size - 2 ^ (m - 1) := by omega
    rw [hend]
    omega

/-- An arena of two or four leaves after `kset`, none of them marked. -/
def overlaid (s₀ : Allocator) (size offset m : ℕ) : Allocator where
  maxTreeLevel := m
  end_ := (size + 2 ^ 32 - 2 ^ (m - 1)) % 2 ^ 32
  size := size
  offset := offset
  blockNumber := size / blockSize
  treeLevels := fun k =>
    if k ≤ m then
      ⟨2 ^ (m - k), (size + 2 ^ 32 - 2 ^ (m - 1)) % 2 ^ 32 + offset + if k = 2 then 1 else 0⟩
    else s₀.treeLevels k
  mem := zeroLoop
    ((size + offset) % 2 ^ 32 - ((size + 2 ^ 32 - 2 ^ (m - 1)) % 2 ^ 32 + offset + 1)) s₀.mem
    ((size + 2 ^ 32 - 2 ^ (m - 1)) % 2 ^ 32 + offset)

theorem kset_overlaid (s₀ : Allocator) (offset : ℕ) (hlt : size < 2 ^ 32)
    (hm : leafLoop 32 1 (size / blockSize) = 2 ^ m) (hpos : 1 ≤ m) (hle : m ≤ 2)
    (hlow : m = 1 ∨ 2 ^ (m - 1) < size / blockSize) (hunmarked : Unmarked size) :
    kset s₀ size offset = overlaid s₀ size offset m := by
  obtain ⟨hhalf, hend⟩ := end_of_leaves hlt hm hpos hlow
  have hleaves := hend.mpr hunmarked
  have hone := Nat.two_pow_pos m
  have hlast : (size + 2 ^ 32 - 2 ^ (m - 1)) % 2 ^ 32 / blockSize > 2 ^ m - 1 := by omega
  have hnext : 2 ^ m >>> 1 = 2 ^ (m - 1) := by
    rcases (by omega : m = 1 ∨ m = 2) with rfl | rfl <;> rfl
  unfold kset initializeTree overlaid
  simp only [hm, hhalf, Function.update_self, hnext]
  generalize (size + 2 ^ 32 - 2 ^ (m - 1)) % 2 ^ 32 = end_ at hleaves hlast
  have hbase : 1 ≤ end_ := hone.trans_le (hleaves.trans (Nat.div_le_self _ _))
  have hpointer : ∀ k, 1 ≤ k → k ≤ m →
      levelPointer (end_ + offset - 1) m k = end_ + offset + if k = 2 then 1 else 0 := by
    intro k hk hkm
    rcases (by omega : m = 1 ∧ k = 1 ∨ m = 2 ∧ k = 1 ∨ m = 2 ∧ k = 2) with
      ⟨rfl, rfl⟩ | ⟨rfl, rfl⟩ | ⟨rfl, rfl⟩
    · rw [if_neg (by decide), levelPointer, levelPointer]
      omega
    · rw [if_neg (by decide), levelPointer, levelPointer]
      omega
    · rw [if_pos rfl, levelPointer, levelPointer, levelPointer]
      omega
  have hedi : 2 ^ m >>> 3 + end_ + offset = levelPointer (end_ + offset - 1) m 1 := by
    rw [hpointer 1 le_rfl hpos]
    rcases (by omega : m = 1 ∨ m = 2) with rfl | rfl <;> simp
  rw [hedi, levelLoop_spec 32 _ 1 hpos (by omega), if_pos hlast]
  congr 1
  funext k
  dsimp only
  rcases Nat.eq_zero_or_pos k with hzero | hk
  · subst hzero
    rw [if_neg (by omega), if_pos (Nat.zero_le m), Function.update_self]
    rfl
  · by_cases hkm : k ≤ m
    · rw [if_pos ⟨hk, hkm⟩, if_pos hkm, hpointer k hk hkm]
    · rw [if_neg fun h => hkm h.2, if_neg hkm, Function.update_of_ne hk.ne',
        Function.update_of_ne hk.ne']

/-- A fresh arena of two or four leaves. -/
theorem crowded_overlaid (s₀ : Allocator) {offset : ℕ} (hlt : size < 2 ^ 32)
    (hm : leafLoop 32 1 (size / blockSize) = 2 ^ m) (hpos : 1 ≤ m) (hle : m ≤ 2)
    (hlow : m = 1 ∨ 2 ^ (m - 1) < size / blockSize) (hunmarked : Unmarked size) :
    Crowded ⟨overlaid s₀ size offset m, []⟩ [] := by
  have hleaves := (end_of_leaves hlt hm hpos hlow).2.mpr hunmarked
  have hpointer : ((overlaid s₀ size offset m).treeLevels 0).pointer =
      (size + 2 ^ 32 - 2 ^ (m - 1)) % 2 ^ 32 + offset := by
    simp [overlaid]
  have hclear : ∀ j < 4, (overlaid s₀ size offset m).leafBit j = false := by
    intro j hj
    have hbyte : (8 * ((overlaid s₀ size offset m).treeLevels 0).pointer + j) / 8 =
        (size + 2 ^ 32 - 2 ^ (m - 1)) % 2 ^ 32 + offset := by omega
    have hzero : (overlaid s₀ size offset m).mem
        (wrap ((size + 2 ^ 32 - 2 ^ (m - 1)) % 2 ^ 32 + offset)) = 0 :=
      zeroLoop_start _ _ _ (Or.inl rfl)
    rw [Allocator.leafBit, bit, load, hbyte, hzero]
    exact Nat.zero_testBit _
  refine ⟨⟨hpos, hle, fun l hl => ?_, ?_, fun htop => ?_, fun x hx k hk => ?_⟩,
    fun k hk hset => ?_, fun _ l hl _ => ?_, List.Perm.refl _, by simp, fun k _ => Nat.zero_le _⟩
  · change l ≤ m at hl
    simp [overlaid, hl]
  · simp [overlaid, hpos]
  · change m = 2 at htop
    simp [overlaid, htop]
  · rw [hpointer]
    change x < 2 ^ m * blockSize at hx
    change k < m at hk
    change wrap (offset + x) ≠ _
    have hbytes := (Nat.le_div_iff_mul_le (by decide)).mp hleaves
    have hword : (size + 2 ^ 32 - 2 ^ (m - 1)) % 2 ^ 32 + k < 2 ^ 32 := by
      rcases hlow with rfl | hlow
      · omega
      · have htop := Nat.div_le_self size blockSize
        have hfew : m - 1 < 2 ^ (m - 1) := Nat.lt_two_pow_self
        omega
    unfold wrap
    omega
  · rw [hclear _ (by omega)] at hset
    cases hset
  · exact Or.inl (hclear _ (by omega))

end

end Neos.Kmalloc
