import Neos.Kmalloc.Marking
import Neos.Kmalloc.MemoryMap
import Neos.Kmalloc.Restore
import Neos.Kmalloc.Sizes

/-!
# Reserving a range

`kmres` clamps the ends of its range to the arena as signed integers and marks the
segments between them.  A range that lies in front of the arena is clamped to its first
segment, and an address in the other half of the address space to one of the ends.
-/

namespace Neos.Kmalloc

open BitMemory BuddyTree Relation

/-! ## What reserving a range means -/

/-- The segment meets the range of `n` bytes at `pointer`. -/
def Meets (s : Allocator) (i pointer n : ℕ) : Prop :=
  s.offset + i * blockSize < pointer + n ∧ pointer < s.offset + (i + 1) * blockSize

/-- Exactly the segments of the arena that meet the range became unavailable: their
leaves are taken in addition to those taken before, every other node of the tree joins
its children, and no run hands out a byte of the range.  A range outside the arena leaves
the tree as it was. -/
structure Reserves (s s' : Allocator) (pointer n : ℕ) : Prop where
  segments : ∀ i, i < 2 ^ s.maxTreeLevel →
    (s'.tree ⟨0, i⟩ ≠ 0 ↔ s.tree ⟨0, i⟩ ≠ 0 ∨ Meets s i pointer n)
  joined : ∀ l k, (⟨l + 1, k⟩ : Node) ≤ s.root → IsJoin s'.tree l k
  handed : ∀ frames h, ReflTransGen (Step frames) ⟨s', []⟩ h →
    ∀ b ∈ h.live, Disjoint b.range (Set.Ico pointer (pointer + n))
  outside : Disjoint (Set.Ico s.offset (s.offset + s.size)) (Set.Ico pointer (pointer + n)) →
    SameTree s s'

section

variable {s s' : Allocator} {first last pointer n : ℕ}

/-- A tree in which the marked leaves are those that meet the range. -/
theorem Fresh.reserves (hn : 1 ≤ n) (hf : Fresh s) (hsame : Same s s')
    (hexact : Exact s'.tree s.root (markedLeaves s first last))
    (hmeets : ∀ i, i < s.front → (first ≤ i ∧ i ≤ last ↔ Meets s i pointer n)) :
    Reserves s s' pointer n := by
  have hfront := hf.layout.front_bounds
  refine ⟨?_, fun l k hroot => hexact.joined_of_leaf markedLeaves_leaf hroot, ?_, ?_⟩
  · intro i hi
    have hroot : (⟨0, i⟩ : Node) ≤ s.root := leaf_le_root_iff.mpr hi
    rw [Ne, hexact.leaf_eq_zero_iff markedLeaves_leaf hroot, Ne,
      hf.exact.leaf_eq_zero_iff systemSegments_leaf hroot, not_not, not_not, mem_systemSegments hi]
    constructor
    · rintro ⟨-, -, hsystem | hmark⟩
      · exact Or.inl hsystem
      · rcases Nat.lt_or_ge i s.front with hlt | hge
        · exact Or.inr ((hmeets i hlt).mp hmark)
        · exact Or.inl hge
    · rintro (hsystem | hmeet)
      · exact ⟨rfl, hi, Or.inl hsystem⟩
      · rcases Nat.lt_or_ge i s.front with hlt | hge
        · exact ⟨rfl, hi, Or.inr ((hmeets i hlt).mpr hmeet)⟩
        · exact ⟨rfl, hi, Or.inl hge⟩
  · intro frames h hrun b hb
    have hstart : Invariant (markedLeaves s first last) ⟨s', []⟩ ⟨s'.tree, []⟩ := by
      refine .start (hf.layout.same hsame) ?_ ?_ ?_
      · rw [hsame.systemSegments_eq]
        exact system_subset_marked
      · rw [hsame.root_eq]
        exact markedLeaves_le_root
      · rw [hsame.root_eq]
        exact hexact.settled (antichain_of_leaf markedLeaves_leaf)
    obtain ⟨a, ha⟩ := hstart.run hrun
    obtain ⟨y, hy, rfl⟩ := ha.invariant.simulates.exists_node hb
    have hsame' : Same s h.alloc := hsame.trans ha.same
    rw [hsame'.block_eq, Set.disjoint_left]
    rintro q hq ⟨hq₁, hq₂⟩
    obtain ⟨hoffset, hleaf⟩ := mem_block_iff.mp hq
    have hle : (⟨0, (q - s.offset) / blockSize⟩ : Node) ≤ y := Node.mem_leaves.mp hleaf
    have hroot := hle.trans (ha.invariant.held_le_root hy)
    rw [hsame'.root_eq] at hroot
    have hi := leaf_le_root_iff.mp hroot
    have hout : (⟨0, (q - s.offset) / blockSize⟩ : Node) ∉ markedLeaves s first last :=
      fun hmem => (ha.invariant.sound.fixed_apart _ hmem y hy).1 hle
    have hdiv := Nat.div_add_mod' (q - s.offset) blockSize
    have hmod := Nat.mod_lt (q - s.offset) (show 0 < blockSize by decide)
    generalize (q - s.offset) / blockSize = i at *
    have hlt : i < s.front := Nat.lt_of_not_le fun hge => hout ⟨rfl, hi, Or.inl hge⟩
    refine hout ⟨rfl, hi, Or.inr ((hmeets i hlt).mpr ⟨by omega, ?_⟩)⟩
    rw [Nat.add_mul]
    omega
  · intro hdisj
    have hnone : ∀ i, i < s.front → ¬ Meets s i pointer n := by
      rintro i hi ⟨h₁, h₂⟩
      have hle : (i + 1) * blockSize ≤ s.front * blockSize := Nat.mul_le_mul_right _ hi
      have hstep : (i + 1) * blockSize = i * blockSize + blockSize := Nat.succ_mul _ _
      have harena : max pointer (s.offset + i * blockSize) ∈
          Set.Ico s.offset (s.offset + s.size) := ⟨by omega, by omega⟩
      have hrange : max pointer (s.offset + i * blockSize) ∈
          Set.Ico pointer (pointer + n) := ⟨by omega, by omega⟩
      exact Set.disjoint_left.mp hdisj harena hrange
    have hset : markedLeaves s first last = systemSegments s := by
      ext ⟨l, i⟩
      constructor
      · rintro ⟨rfl, hi, hsystem | hmark⟩
        · exact (mem_systemSegments hi).mpr hsystem
        · rcases Nat.lt_or_ge i s.front with hlt | hge
          · exact absurd ((hmeets i hlt).mp hmark) (hnone i hlt)
          · exact (mem_systemSegments hi).mpr hge
      · exact fun hx => system_subset_marked hx
    rw [hset] at hexact
    exact fun z hz => hf.exact.unique hexact hz

theorem clampedSegment_le (hl : Layout s) (value : ℕ) :
    clampedSegment s.offset s.size value ≤ (s.size - 1) / blockSize := by
  have hpos := Nat.two_pow_pos (s.maxTreeLevel - 1)
  have hend := hl.end_eq
  have hbounds := clamp_bounds (show 1 ≤ s.size by omega) hl.fits value
  exact Nat.div_le_div_right (by omega)

/-- The marked segments are the right ones, and nothing stays written over behind the
tree. -/
theorem Fresh.reserves_iff (hn : 1 ≤ n) (hf : Fresh s)
    (hfirst : first = clampedSegment s.offset s.size pointer)
    (hlast : last = max first (clampedSegment s.offset s.size (pointer + n + 2 ^ 32 - 1))) :
    Reserves s (kmres s pointer n) pointer n ↔
      (∀ i, i < s.front → (first ≤ i ∧ i ≤ last ↔ Meets s i pointer n)) ∧
        (last < 2 ^ s.maxTreeLevel ∨ first ≤ 1) := by
  have hfront := hf.layout.front_bounds
  have hblocks := hf.layout.blocks_le
  have hle : first ≤ last := hlast ▸ le_max_left _ _
  have hbehind : last ≤ 2 ^ s.maxTreeLevel := by
    have hpred : (s.size - 1) / blockSize ≤ s.size / blockSize :=
      Nat.div_le_div_right (Nat.sub_le _ _)
    have h₁ := clampedSegment_le hf.layout pointer
    have h₂ := clampedSegment_le hf.layout (pointer + n + 2 ^ 32 - 1)
    omega
  have hkmres : kmres s pointer n = takeSegments s first last := by
    rw [hf.layout.kmres_clamped, hlast, hfirst]
  have hsame := takeSegments_same s first last
  rw [hkmres]
  constructor
  · intro hr
    -- a leaf in front of the control structure is taken when it is marked
    have hleaf : ∀ i, i < s.front →
        ((takeSegments s first last).tree ⟨0, i⟩ ≠ 0 ↔ first ≤ i ∧ i ≤ last) := by
      intro i hi
      have hi' : i < 2 ^ s.maxTreeLevel := by omega
      have hroot : (⟨0, i⟩ : Node) ≤ s.root := leaf_le_root_iff.mpr hi'
      rcases Nat.lt_or_eq_of_le hbehind with hin | hout
      · rw [Ne, (hf.exact_inside hle hin).leaf_eq_zero_iff markedLeaves_leaf hroot, not_not]
        constructor
        · rintro ⟨-, -, hsystem | hmark⟩
          · exact absurd hi (Nat.not_lt_of_le hsystem)
          · exact hmark
        · exact fun hmark => ⟨rfl, hi', Or.inr hmark⟩
      · have hzero : s.tree ⟨0, i⟩ = 0 := by
          rw [hf.exact.leaf_eq_zero_iff systemSegments_leaf hroot, mem_systemSegments hi']
          omega
        rw [hout, hf.leaf_behind (hout ▸ hle) hi', hzero]
        split
        · exact ⟨fun _ => ⟨‹_›, hi'.le⟩, fun _ => by decide⟩
        · exact ⟨fun h => absurd rfl h, fun h => absurd h.1 ‹_›⟩
    refine ⟨fun i hi => ?_, ?_⟩
    · have hi' : i < 2 ^ s.maxTreeLevel := by omega
      have hroot : (⟨0, i⟩ : Node) ≤ s.root := leaf_le_root_iff.mpr hi'
      have hzero : s.tree ⟨0, i⟩ = 0 := by
        rw [hf.exact.leaf_eq_zero_iff systemSegments_leaf hroot, mem_systemSegments hi']
        omega
      have hsegment := hr.segments i hi'
      rw [hleaf i hi, hzero] at hsegment
      rw [hsegment]
      exact ⟨fun h => h.resolve_left fun h => h rfl, Or.inr⟩
    · by_contra hbad
      have hout : last = 2 ^ s.maxTreeLevel := by omega
      have htwo : 2 ≤ first := by omega
      have hzero : ∀ i, i < 2 → (takeSegments s first last).tree ⟨0, i⟩ = 0 := by
        intro i hi
        by_contra hne
        have hmark := (hleaf i (by omega)).mp hne
        omega
      have hthree := hf.layout.three_le
      have hjoin := hr.joined 0 0 (le_root_iff.mpr ⟨by simp only; omega, Nat.two_pow_pos _⟩)
      rw [IsJoin, Node.left, Node.right, hzero _ (by decide), hzero _ (by decide), join_zero]
        at hjoin
      have hbit := hf.testBit_behind htwo (hout ▸ hle)
      rw [← hout, hjoin] at hbit
      exact absurd hbit (by decide)
  · rintro ⟨hmeets, hplace⟩
    rcases Nat.lt_or_eq_of_le hbehind with hin | hout
    · exact hf.reserves hn hsame (hf.exact_inside hle hin) hmeets
    · have hone : first ≤ 1 := by omega
      rw [hout] at hmeets hsame ⊢
      exact hf.reserves hn hsame (hf.exact_behind hone) hmeets

end

/-! ## The clamped ends -/

section

variable {offset size : ℕ}

/-- The segment of the address of the arena that is nearest to a given one. -/
def nearestSegment (offset size v : ℕ) : ℕ :=
  (min (max v offset) (offset + size - 1) - offset) / blockSize

theorem nearestSegment_mono {v w : ℕ} (h : v ≤ w) :
    nearestSegment offset size v ≤ nearestSegment offset size w :=
  Nat.div_le_div_right (by omega)

theorem nearestSegment_lt_iff {v k : ℕ} (hsize : 1 ≤ size) (hk : 1 ≤ k) :
    nearestSegment offset size v < k ↔ size ≤ k * blockSize ∨ v < offset + k * blockSize := by
  have hpos : 1 * blockSize ≤ k * blockSize := Nat.mul_le_mul_right _ hk
  have hblock : 0 < blockSize := by decide
  rw [nearestSegment, Nat.div_lt_iff_lt_mul hblock]
  omega

/-- An address of the arena keeps its segment, one behind it gets the last one. -/
theorem nearestSegment_eq {v : ℕ} (h : v < offset + size) :
    nearestSegment offset size v = (v - offset) / blockSize := by
  have hmin : min (max v offset) (offset + size - 1) - offset = v - offset := by omega
  rw [nearestSegment, hmin]

theorem nearestSegment_behind {v : ℕ} (hsize : 1 ≤ size) (h : offset + size ≤ v) :
    nearestSegment offset size v = (size - 1) / blockSize := by
  have hmin : min (max v offset) (offset + size - 1) - offset = size - 1 := by omega
  rw [nearestSegment, hmin]

/-- An address in the same half of the address space as the arena is clamped to it. -/
theorem clampedSegment_same_half {v : ℕ} (c : ℤ) (hsize : 1 ≤ size)
    (hfits : offset + size ≤ 2 ^ 32) (hv : v < 2 ^ 32) (hvalue : toInt v = v - c)
    (hoffset : toInt offset = offset - c)
    (hend : toInt (offset + size - 1) = (offset + size - 1 : ℕ) - c) :
    clampedSegment offset size v = nearestSegment offset size v := by
  have hlast : toInt (offset + size + 2 ^ 32 - 1) = toInt (offset + size - 1) :=
    toInt_congr (by omega)
  have hmod : offset % 2 ^ 32 = offset := Nat.mod_eq_of_lt (by omega)
  have hmod' : (offset + size - 1) % 2 ^ 32 = offset + size - 1 := Nat.mod_eq_of_lt (by omega)
  have hv' : v % 2 ^ 32 = v := Nat.mod_eq_of_lt hv
  rw [clampedSegment, nearestSegment, hlast, clamp, hvalue, hoffset, hend]
  split
  · have hmin : min (max v offset) (offset + size - 1) = offset := by omega
    rw [← hoffset, toWord_toInt, hmod, hmin]
  · split
    · have hmin : min (max v offset) (offset + size - 1) = offset + size - 1 := by omega
      rw [← hend, toWord_toInt, hmod', hmin]
    · have hmin : min (max v offset) (offset + size - 1) = v := by omega
      rw [← hvalue, toWord_toInt, hv', hmin]

theorem clampedSegment_of_low (hsize : 1 ≤ size) (hlow : offset + size ≤ 2 ^ 31) {v : ℕ}
    (hv : v < 2 ^ 32) :
    clampedSegment offset size v =
      if v < 2 ^ 31 then nearestSegment offset size v else 0 := by
  have hoffset := toInt_of_lt (n := offset) (by omega)
  have hend := toInt_of_lt (n := offset + size - 1) (by omega)
  by_cases hpos : v < 2 ^ 31
  · have hvalue := toInt_of_lt hpos
    rw [if_pos hpos]
    exact clampedSegment_same_half 0 hsize (by omega) hv (by omega) (by omega) (by omega)
  · have hlast : toInt (offset + size + 2 ^ 32 - 1) = toInt (offset + size - 1) :=
      toInt_congr (by omega)
    have hmod : offset % 2 ^ 32 = offset := Nat.mod_eq_of_lt (by omega)
    have hvalue := toInt_of_ge (n := v) (by omega) hv
    rw [if_neg hpos, clampedSegment, hlast, clamp, if_pos (by omega), toWord_toInt, hmod,
      Nat.sub_self, Nat.zero_div]

theorem clampedSegment_of_high (hsize : 1 ≤ size) (hhigh : 2 ^ 31 ≤ offset)
    (hfits : offset + size ≤ 2 ^ 32) {v : ℕ} (hv : v < 2 ^ 32) :
    clampedSegment offset size v =
      if v < 2 ^ 31 then (size - 1) / blockSize else nearestSegment offset size v := by
  have hoffset := toInt_of_ge (n := offset) hhigh (by omega)
  have hend := toInt_of_ge (n := offset + size - 1) (by omega) (by omega)
  by_cases hpos : v < 2 ^ 31
  · have hlast : toInt (offset + size + 2 ^ 32 - 1) = toInt (offset + size - 1) :=
      toInt_congr (by omega)
    have hmod' : (offset + size - 1) % 2 ^ 32 = offset + size - 1 := Nat.mod_eq_of_lt (by omega)
    have hvalue := toInt_of_lt hpos
    have hpred : offset + size - 1 - offset = size - 1 := by omega
    rw [if_pos hpos, clampedSegment, hlast, clamp, if_neg (by omega), if_pos (by omega),
      toWord_toInt, hmod', hpred]
  · have hvalue := toInt_of_ge (n := v) (by omega) hv
    rw [if_neg hpos]
    exact clampedSegment_same_half (2 ^ 32) hsize hfits hv hvalue hoffset hend

end

/-! ## Which ranges are reserved -/

/-- The intervals from `a` to `b` and from `c` to `d` agree below a bound. -/
def Agree (bound a b c d : ℕ) : Prop :=
  (bound ≤ a ∧ bound ≤ c) ∨ (a = c ∧ (b = d ∨ (bound ≤ b + 1 ∧ bound ≤ d + 1)))

theorem agree_iff {a b c d bound : ℕ} (hab : a ≤ b) (hcd : c ≤ d) :
    (∀ i, i < bound → (a ≤ i ∧ i ≤ b ↔ c ≤ i ∧ i ≤ d)) ↔ Agree bound a b c d := by
  unfold Agree
  constructor
  · intro h
    by_cases ha : a < bound
    · have h₁ := h a ha
      have h₂ := h c
      have h₃ := h (b + 1)
      have h₄ := h (d + 1)
      omega
    · have h₁ := h c
      omega
  · intro h i hi
    omega

/-- An interval that is empty below a bound. -/
theorem interval_empty_iff {a b bound : ℕ} (hab : a ≤ b) {p : ℕ → Prop} (hp : ∀ i, ¬ p i) :
    (∀ i, i < bound → (a ≤ i ∧ i ≤ b ↔ p i)) ↔ bound ≤ a := by
  constructor
  · intro h
    by_contra hlt
    exact hp a ((h a (by omega)).mp ⟨le_rfl, hab⟩)
  · exact fun h i hi => iff_of_false (by omega) (hp i)

section

variable {s : Allocator} {pointer n : ℕ}

/-- The segments that meet a range are those between its ends. -/
theorem meets_iff (hend : s.offset < pointer + n) (i : ℕ) :
    Meets s i pointer n ↔
      (pointer - s.offset) / blockSize ≤ i ∧ i ≤ (pointer + n - 1 - s.offset) / blockSize := by
  unfold Meets
  rw [Nat.div_le_iff_le_mul_add_pred (by decide), Nat.le_div_iff_mul_le (by decide), Nat.add_mul,
    Nat.mul_comm blockSize]
  have hblock : 0 < blockSize := by decide
  omega

theorem not_meets (hend : pointer + n ≤ s.offset) (i : ℕ) : ¬ Meets s i pointer n := by
  rintro ⟨h, -⟩
  omega

end

/-- The ranges that `kmres` reserves.  An arena below the largest `int` must not be asked
for a range above it, one above the largest `int` must not be asked for a range that
begins below it, and in an arena that straddles it only the ends can be reserved.  A
range must not lie in front of the arena, and where the last segment is not whole it
must not begin behind the second segment and reach that one. -/
def Reservable (offset size pointer n : ℕ) : Prop :=
  let front := frontSize size / blockSize
  let tree := leavesFor size * blockSize
  if offset + size ≤ 2 ^ 31 then
    pointer < 2 ^ 31 ∧ offset < pointer + n ∧
      (pointer + n ≤ 2 ^ 31 ∨ front ≤ (pointer - offset) / blockSize + 1) ∧
      (size ≤ tree ∨ pointer < offset + 2 * blockSize ∨
        (pointer < offset + tree ∧ (2 ^ 31 < pointer + n ∨ pointer + n ≤ offset + tree)))
  else if 2 ^ 31 ≤ offset then
    if pointer < 2 ^ 31 then pointer + n ≤ offset ∧ size ≤ tree
    else
      offset < pointer + n ∧
        (size ≤ tree ∨ pointer < offset + 2 * blockSize ∨ pointer + n ≤ offset + tree)
  else if offset ≤ pointer ∧ pointer < 2 ^ 31 then
    front ≤ (pointer - offset) / blockSize ∧ size ≤ tree
  else if pointer + n ≤ 2 ^ 31 then
    offset < pointer + n ∧ front ≤ (pointer + n - 1 - offset) / blockSize + 1
  else pointer + n ≤ offset + blockSize

section

variable {offset size pointer n front leaves : ℕ}

/-- In one half of the address space the segments that meet the range are marked as soon
as it does not lie in front of the arena. -/
theorem agree_nearest (hfront : front * blockSize < size) (hend : offset < pointer + n) :
    Agree front (nearestSegment offset size pointer) (nearestSegment offset size (pointer + n - 1))
      ((pointer - offset) / blockSize) ((pointer + n - 1 - offset) / blockSize) := by
  have hlast : front ≤ (size - 1) / blockSize :=
    (Nat.le_div_iff_mul_le (by decide)).mpr (by omega)
  rcases Nat.lt_or_ge pointer (offset + size) with hin | hout
  · refine Or.inr ⟨nearestSegment_eq hin, ?_⟩
    rcases Nat.lt_or_ge (pointer + n - 1) (offset + size) with hin' | hout'
    · exact Or.inl (nearestSegment_eq hin')
    · have hle : (size - 1) / blockSize ≤ (pointer + n - 1 - offset) / blockSize :=
        Nat.div_le_div_right (by omega)
      rw [nearestSegment_behind (by omega) hout']
      exact Or.inr ⟨by omega, by omega⟩
  · have hle : (size - 1) / blockSize ≤ (pointer - offset) / blockSize :=
      Nat.div_le_div_right (by omega)
    rw [nearestSegment_behind (by omega) hout]
    exact Or.inl ⟨hlast, hlast.trans hle⟩

end

section

variable {s : Allocator} {pointer n first last : ℕ}

/-- The segments between two others are those that meet the range. -/
theorem marked_iff_agree (hn : 1 ≤ n) (hle : first ≤ last) :
    (∀ i, i < s.front → (first ≤ i ∧ i ≤ last ↔ Meets s i pointer n)) ↔
      if s.offset < pointer + n then
        Agree s.front first last ((pointer - s.offset) / blockSize)
          ((pointer + n - 1 - s.offset) / blockSize)
      else s.front ≤ first := by
  split
  · next hend =>
      simp only [meets_iff hend]
      exact agree_iff hle (Nat.div_le_div_right (by omega))
  · next hend => exact interval_empty_iff hle (not_meets (by omega))

end

section

variable {offset size front leaves pointer n first last : ℕ}

/-- The range and the arena lie in one half of the address space. -/
theorem reserved_nearest_iff (hfront : 4 ≤ front) (hleaves : front ≤ leaves)
    (hsize : front * blockSize < size) (hfirst : first = nearestSegment offset size pointer)
    (hlast : last = max first (nearestSegment offset size (pointer + n - 1))) (hn : 1 ≤ n) :
    ((if offset < pointer + n then
        Agree front first last ((pointer - offset) / blockSize)
          ((pointer + n - 1 - offset) / blockSize)
      else front ≤ first) ∧ (last < leaves ∨ first ≤ 1)) ↔
      offset < pointer + n ∧ (size ≤ leaves * blockSize ∨ pointer < offset + 2 * blockSize ∨
        pointer + n ≤ offset + leaves * blockSize) := by
  have htwo : 2 * blockSize < size :=
    lt_of_le_of_lt (Nat.mul_le_mul_right _ (by omega)) hsize
  have hle : first ≤ nearestSegment offset size (pointer + n - 1) :=
    hfirst ▸ nearestSegment_mono (by omega)
  have hone : nearestSegment offset size pointer < 2 ↔
      size ≤ 2 * blockSize ∨ pointer < offset + 2 * blockSize :=
    nearestSegment_lt_iff (by omega) (by decide)
  have hin : nearestSegment offset size (pointer + n - 1) < leaves ↔
      size ≤ leaves * blockSize ∨ pointer + n - 1 < offset + leaves * blockSize :=
    nearestSegment_lt_iff (by omega) (by omega)
  rw [← hfirst] at hone
  rw [max_eq_right hle] at hlast
  rw [← hlast] at hin
  split
  · next hend =>
      have hagree := agree_nearest hsize hend
      rw [← hfirst, ← hlast] at hagree
      simp only [hagree, hend, true_and]
      omega
  · next hend =>
      omega

/-- The range reaches into the other half, behind a low arena. -/
theorem reserved_reaching_iff (hfront : 4 ≤ front) (hleaves : front ≤ leaves)
    (hsize : front * blockSize < size) (hpast : offset + size ≤ pointer + n - 1)
    (hfirst : first = nearestSegment offset size pointer) :
    (Agree front first first ((pointer - offset) / blockSize)
        ((pointer + n - 1 - offset) / blockSize) ∧ (first < leaves ∨ first ≤ 1)) ↔
      front ≤ (pointer - offset) / blockSize + 1 ∧
        (size ≤ leaves * blockSize ∨ pointer < offset + leaves * blockSize) := by
  have hlast : front ≤ (size - 1) / blockSize :=
    (Nat.le_div_iff_mul_le (by decide)).mpr (by omega)
  have hhigh : (size - 1) / blockSize ≤ (pointer + n - 1 - offset) / blockSize :=
    Nat.div_le_div_right (by omega)
  have hin : nearestSegment offset size pointer < leaves ↔
      size ≤ leaves * blockSize ∨ pointer < offset + leaves * blockSize :=
    nearestSegment_lt_iff (by omega) (by omega)
  rw [← hfirst] at hin
  unfold Agree
  rcases Nat.lt_or_ge pointer (offset + size) with hinside | hout
  · rw [nearestSegment_eq hinside] at hfirst
    omega
  · have hle : (size - 1) / blockSize ≤ (pointer - offset) / blockSize :=
      Nat.div_le_div_right (by omega)
    rw [nearestSegment_behind (by omega) hout] at hfirst
    omega

/-- Only the last segment is marked. -/
theorem reserved_last_iff (hfront : 4 ≤ front) (hsize : front * blockSize < size) :
    ((if offset < pointer + n then
        Agree front ((size - 1) / blockSize) ((size - 1) / blockSize)
          ((pointer - offset) / blockSize) ((pointer + n - 1 - offset) / blockSize)
      else front ≤ (size - 1) / blockSize) ∧
        ((size - 1) / blockSize < leaves ∨ (size - 1) / blockSize ≤ 1)) ↔
      (offset < pointer + n → front ≤ (pointer - offset) / blockSize) ∧
        size ≤ leaves * blockSize := by
  have hlast : front ≤ (size - 1) / blockSize :=
    (Nat.le_div_iff_mul_le (by decide)).mpr (by omega)
  have hin : (size - 1) / blockSize < leaves ↔ size ≤ leaves * blockSize := by
    rw [Nat.div_lt_iff_lt_mul (by decide)]
    omega
  unfold Agree
  split <;> omega

/-- The first segment is marked, and in an arena that straddles the largest `int` either
no other or all of them. -/
theorem reserved_first_iff (hfront : 4 ≤ front) (hsize : front * blockSize < size)
    (hpointer : pointer < offset ∨ 2 ^ 31 ≤ pointer) (hacross : offset < 2 ^ 31) (hn : 1 ≤ n)
    (hlast : last = if offset ≤ pointer + n - 1 ∧ pointer + n - 1 < 2 ^ 31 then
      (size - 1) / blockSize else 0) :
    (if offset < pointer + n then
        Agree front 0 last ((pointer - offset) / blockSize) ((pointer + n - 1 - offset) / blockSize)
      else front ≤ 0) ↔
      if pointer + n ≤ 2 ^ 31 then
        offset < pointer + n ∧ front ≤ (pointer + n - 1 - offset) / blockSize + 1
      else pointer + n ≤ offset + blockSize := by
  have hend : front ≤ (size - 1) / blockSize :=
    (Nat.le_div_iff_mul_le (by decide)).mpr (by omega)
  unfold Agree
  by_cases hin : pointer + n ≤ 2 ^ 31
  · have hbelow : pointer - offset = 0 := by omega
    rw [if_pos hin, hbelow, Nat.zero_div]
    split
    · next hmeet =>
        rw [if_pos (by omega)] at hlast
        omega
    · omega
  · have hmeet : offset < pointer + n := by omega
    have hfirst : (pointer + n - 1 - offset) / blockSize = 0 ↔ pointer + n ≤ offset + blockSize := by
      rw [Nat.div_eq_zero_iff_lt (by decide)]
      omega
    have hle : (pointer - offset) / blockSize ≤ (pointer + n - 1 - offset) / blockSize :=
      Nat.div_le_div_right (by omega)
    rw [if_neg hin, if_pos hmeet]
    rw [if_neg (by omega)] at hlast
    generalize (pointer - offset) / blockSize = low at *
    omega

end

section

variable {s : Allocator} {pointer n first last : ℕ}

/-- The marked segments are the right ones for the ranges that are reserved. -/
theorem Layout.reservable_iff (hl : Layout s) (hfits : s.offset + s.size < 2 ^ 32) (hn : 1 ≤ n)
    (hrange : pointer + n ≤ 2 ^ 32) (hfirst : first = clampedSegment s.offset s.size pointer)
    (hlast : last = max first (clampedSegment s.offset s.size (pointer + n + 2 ^ 32 - 1))) :
    (∀ i, i < s.front → (first ≤ i ∧ i ≤ last ↔ Meets s i pointer n)) ∧
        (last < 2 ^ s.maxTreeLevel ∨ first ≤ 1) ↔
      Reservable s.offset s.size pointer n := by
  obtain ⟨hfour, hfront, hsize⟩ := hl.front_bounds
  have hle : first ≤ last := hlast ▸ le_max_left _ _
  have hleaves : leavesFor s.size = 2 ^ s.maxTreeLevel := by rw [leavesFor, hl.maxTreeLevel_eq]
  have hsize : s.front * blockSize < s.size := by omega
  have hpos : 1 ≤ s.size := by omega
  have hpred : clampedSegment s.offset s.size (pointer + n + 2 ^ 32 - 1) =
      clampedSegment s.offset s.size (pointer + n - 1) := clampedSegment_congr (by omega)
  have hp : pointer < 2 ^ 32 := by omega
  have hp' : pointer + n - 1 < 2 ^ 32 := by omega
  rw [Reservable, hleaves, ← hl.end_eq_frontSize, ← Allocator.front, marked_iff_agree hn hle]
  rw [hpred] at hlast
  rcases Nat.lt_or_ge (2 ^ 31) (s.offset + s.size) with habove | hlow
  · rw [if_neg (Nat.not_le_of_lt habove)]
    rcases Nat.lt_or_ge s.offset (2 ^ 31) with hacross | hhigh
    · rw [clampedSegment_of_across hacross habove hfits.le hp] at hfirst
      rw [clampedSegment_of_across hacross habove hfits.le hp'] at hlast
      rw [if_neg (Nat.not_le_of_lt hacross)]
      by_cases hin : s.offset ≤ pointer ∧ pointer < 2 ^ 31
      · rw [if_pos hin] at hfirst
        have hmax : last = (s.size - 1) / blockSize := by
          split at hlast <;> omega
        rw [if_pos hin, hfirst, hmax, reserved_last_iff hfour hsize]
        exact and_congr_left' ⟨fun h => h (by omega), fun h _ => h⟩
      · rw [if_neg hin] at hfirst
        rw [hfirst, Nat.zero_max] at hlast
        rw [if_neg hin, hfirst, reserved_first_iff hfour hsize (by omega) hacross hn hlast]
        exact and_iff_left (Or.inr (Nat.zero_le _))
    · rw [clampedSegment_of_high hpos hhigh hfits.le hp] at hfirst
      rw [clampedSegment_of_high hpos hhigh hfits.le hp'] at hlast
      rw [if_pos hhigh]
      by_cases hbelow : pointer < 2 ^ 31
      · rw [if_pos hbelow] at hfirst
        have hmax : last = (s.size - 1) / blockSize := by
          have hlt : nearestSegment s.offset s.size (pointer + n - 1) < (s.size - 1) / blockSize + 1 :=
            Nat.lt_succ_of_le (Nat.div_le_div_right (by omega))
          split at hlast <;> omega
        have hzero : pointer - s.offset = 0 := by omega
        rw [if_pos hbelow, hfirst, hmax, reserved_last_iff hfour hsize, hzero, Nat.zero_div]
        exact and_congr_left' ⟨fun h => by omega, fun h => by omega⟩
      · rw [if_neg hbelow] at hfirst
        rw [if_neg (by omega)] at hlast
        rw [if_neg hbelow, reserved_nearest_iff hfour hfront hsize hfirst hlast hn]
  · rw [clampedSegment_of_low hpos hlow hp] at hfirst
    rw [clampedSegment_of_low hpos hlow hp'] at hlast
    rw [if_pos hlow]
    by_cases hbelow : pointer < 2 ^ 31
    · rw [if_pos hbelow] at hfirst
      by_cases hbelow' : pointer + n - 1 < 2 ^ 31
      · rw [if_pos hbelow'] at hlast
        rw [reserved_nearest_iff hfour hfront hsize hfirst hlast hn]
        omega
      · rw [if_neg hbelow', Nat.max_zero] at hlast
        rw [if_pos (by omega), hlast, reserved_reaching_iff hfour hfront hsize (by omega) hfirst]
        have hfour' : 4 * blockSize ≤ 2 ^ s.maxTreeLevel * blockSize :=
          Nat.mul_le_mul_right _ (by omega)
        omega
    · have hzero : first = 0 ∧ last = 0 := by
        rw [if_neg hbelow] at hfirst
        rw [if_neg (by omega)] at hlast
        omega
      have hsegment : 1 ≤ (pointer - s.offset) / blockSize := by
        rw [Nat.le_div_iff_mul_le (by decide)]
        have hone : 1 * blockSize ≤ s.front * blockSize := Nat.mul_le_mul_right _ (by omega)
        omega
      rw [hzero.1, hzero.2, if_pos (by omega)]
      unfold Agree
      omega

end

/-- Right after `kset`, `kmres` reserves exactly the ranges that are `Reservable`. -/
theorem kmres_reserves_iff (beyond : ℕ → LevelDescriptor) (mem : Memory)
    {size offset pointer n : ℕ} (hsize : 5 * blockSize ≤ size) (hfits : offset + size < 2 ^ 32)
    (hn : 1 ≤ n) (hrange : pointer + n ≤ 2 ^ 32) :
    Reserves (kset (boot beyond mem) size offset)
        (kmres (kset (boot beyond mem) size offset) pointer n) pointer n ↔
      Reservable offset size pointer n := by
  obtain ⟨hf, hoffset, hsz⟩ := kset_fresh beyond mem hsize hfits
  rw [hf.reserves_iff hn rfl rfl, hf.layout.reservable_iff hf.fits hn hrange rfl rfl, hoffset, hsz]

theorem kmres_reserves_iff_smallArena :
    Reserves smallArena (kmres smallArena 5000 100) 5000 100 ↔ Reservable 4096 8192 5000 100 :=
  kmres_reserves_iff (fun _ => ⟨0, 0⟩) (fun _ => 0) (by decide) (by decide) (by decide) (by decide)

/-- A range in front of the arena takes its first segment. -/
theorem kmres_in_front : ¬ Reserves smallArena (kmres smallArena 0 100) 0 100 := by
  intro h
  have hdisj : Disjoint (Set.Ico smallArena.offset (smallArena.offset + smallArena.size))
      (Set.Ico 0 (0 + 100)) := by
    have hoffset : smallArena.offset = 4096 := by decide +kernel
    rw [hoffset, Set.disjoint_left]
    rintro q ⟨hq, -⟩ ⟨-, hq'⟩
    omega
  have hroot : (⟨0, 0⟩ : Node) ≤ smallArena.root := by decide +kernel
  have hkept := h.outside hdisj ⟨0, 0⟩ hroot
  revert hkept
  decide +kernel

end Neos.Kmalloc
