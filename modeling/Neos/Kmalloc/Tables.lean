import Mathlib.Order.Bounds.Basic
import Neos.Kmalloc.Requests

/-!
# The tables of a fresh arena

The control structure reserves four bits for each leaf, and the tables of the levels,
each rounded up to whole bytes, fit into it.  An element of a table reads back what it was
set to and no other element changes.
-/

namespace Neos.Kmalloc

open BitMemory BuddyTree

/-- The bytes of the table of a level. -/
def Allocator.table (s : Allocator) (l : ℕ) : Set ℕ :=
  Set.Ico (s.treeLevels l).pointer
    ((s.treeLevels l).pointer + ((s.treeLevels l).size * (l + 1) + 7) / 8)

/-- The bytes reserved for the control structure. -/
def Allocator.control (s : Allocator) : Set ℕ :=
  Set.Ico (s.offset + s.end_) (s.offset + s.size)

/-- The tables of a tree with some leaves lie apart in the control structure, and the
segments that meet it are marked. -/
structure TablesFit (s : Allocator) (leaves : ℕ) : Prop where
  level : s.maxTreeLevel = Nat.log 2 leaves
  nodes : ∀ l ≤ s.maxTreeLevel, (s.treeLevels l).size = leaves / 2 ^ l
  disjoint : ∀ l ≤ s.maxTreeLevel, ∀ l' ≤ s.maxTreeLevel, l ≠ l' → Disjoint (s.table l) (s.table l')
  inside : ∀ l ≤ s.maxTreeLevel, s.table l ⊆ s.control
  marked : ∀ i < leaves, ¬ Disjoint (s.block ⟨0, i⟩).range s.control → getTreeElement s 0 i = 1

section

variable {s : Allocator}

theorem Layout.table_end (h : Layout s) {l : ℕ} (hl : l ≤ s.maxTreeLevel) {p : ℕ}
    (hp : p ∈ s.table l) :
    (s.treeLevels l).pointer ≤ p ∧
      8 * p < 8 * (s.treeLevels l).pointer + 2 ^ (s.maxTreeLevel - l) * (l + 1) := by
  obtain ⟨h₁, h₂⟩ := hp
  rw [h.size_eq l hl] at h₂
  exact ⟨h₁, by omega⟩

/-- Tables of different levels share no byte. -/
theorem Layout.table_disjoint (h : Layout s) {l l' : ℕ} (hlt : l < l') (hl' : l' ≤ s.maxTreeLevel) :
    Disjoint (s.table l) (s.table l') := by
  rw [Set.disjoint_left]
  intro p hp hp'
  have hend := (h.table_end (hlt.le.trans hl') hp).2
  have hstart := (h.table_end hl' hp').1
  have hordered := h.ordered l l' hlt hl'
  omega

theorem Layout.table_inside (h : Layout s) {l : ℕ} (hl : l ≤ s.maxTreeLevel) :
    s.table l ⊆ s.control := by
  intro p hp
  obtain ⟨hstart, hend⟩ := h.table_end hl hp
  have habove := h.above l hl
  have hinside := h.inside l hl
  exact ⟨by omega, by omega⟩

/-- A segment that meets the control structure is one of those `initializetree`
marks. -/
theorem mem_systemSegments_of_meets {i : ℕ} (hi : i < 2 ^ s.maxTreeLevel)
    (hmeets : ¬ Disjoint (s.block ⟨0, i⟩).range s.control) : (⟨0, i⟩ : Node) ∈ systemSegments s := by
  obtain ⟨p, ⟨hp₁, hp₂⟩, hp₃, -⟩ := Set.not_disjoint_iff.mp hmeets
  simp only [Allocator.block, pow_zero, Nat.mul_one, Nat.one_mul] at hp₁ hp₂
  have hpos : 0 < blockSize := by decide
  refine ⟨rfl, ?_, Nat.le_pred_of_lt hi⟩
  show s.end_ / blockSize ≤ i
  rw [← Nat.lt_succ_iff, Nat.div_lt_iff_lt_mul hpos, Nat.succ_mul]
  omega

theorem Ready.tablesFit (h : Ready s) : TablesFit s (2 ^ s.maxTreeLevel) where
  level := (Nat.log_pow (by decide) _).symm
  nodes l hl := by rw [h.layout.size_eq l hl, Nat.pow_div hl (by decide)]
  disjoint l hl l' hl' hne := by
    rcases Nat.lt_or_gt_of_ne hne with hlt | hgt
    · exact h.layout.table_disjoint hlt hl'
    · exact (h.layout.table_disjoint hgt hl).symm
  inside l hl := h.layout.table_inside hl
  marked i hi hmeets := by
    have hfull := h.settled.full _ (mem_systemSegments_of_meets hi hmeets)
    rwa [ones_zero] at hfull

/-- The number of leaves of a laid out arena. -/
theorem Layout.isLeast_leaves (h : Layout s) :
    IsLeast {n | 2 ≤ n ∧ s.size / blockSize ≤ n ∧ ∃ k, n = 2 ^ k} (2 ^ s.maxTreeLevel) := by
  have hthree := h.three_le
  refine ⟨⟨?_, h.blocks_le, _, rfl⟩, ?_⟩
  · exact (Nat.pow_le_pow_right (by decide) (by omega)).trans' (by decide : 2 ≤ 2 ^ 1)
  · rintro _ ⟨-, hblocks, k, rfl⟩
    refine Nat.pow_le_pow_right (by decide) ?_
    have hlt : 2 ^ (s.maxTreeLevel - 1) < 2 ^ k := h.lt_blocks.trans_le hblocks
    have hk := (Nat.pow_lt_pow_iff_right (by decide : 1 < 2)).mp hlt
    omega

end

/-- The tables that `kset` lays out, each rounded up to whole bytes, lie apart in the
bytes it reserves for them, and every segment that meets these is marked. -/
theorem kset_tablesFit (beyond : ℕ → LevelDescriptor) (mem : Memory) {size offset : ℕ}
    (hsize : 8192 ≤ size) (hlt : size < 2 ^ 32) (hfits : offset + size ≤ 2 ^ 32) :
    (kset (boot beyond mem) size offset).offset = offset ∧
      (kset (boot beyond mem) size offset).size = size ∧
      ∃ leaves, IsLeast {n | 2 ≤ n ∧ size / blockSize ≤ n ∧ ∃ k, n = 2 ^ k} leaves ∧
        TablesFit (kset (boot beyond mem) size offset) leaves := by
  obtain ⟨hready, hoffset, hsize', -⟩ := kset_ready beyond mem (by omega) hlt hfits
  have hleaves := hready.layout.isLeast_leaves
  rw [hsize'] at hleaves
  exact ⟨hoffset, hsize', _, hleaves, hready.tablesFit⟩

theorem kset_tablesFit_small :
    ∃ leaves, IsLeast {n | 2 ≤ n ∧ 9000 / blockSize ≤ n ∧ ∃ k, n = 2 ^ k} leaves ∧
      TablesFit (kset (boot (fun _ => ⟨0, 0⟩) fun _ => 0) 9000 4096) leaves :=
  (kset_tablesFit (fun _ => ⟨0, 0⟩) (fun _ => 0) (by decide) (by decide) (by decide)).2.2

/-! ## Single elements of any arena

The tables an earlier arena left behind and the place of the arena do not matter for the
elements: moved to the bottom of the address space the tables are those of a well laid out
arena.
-/

/-- The level of a node has a descriptor, and the node lies in it. -/
def Allocator.Describes (s : Allocator) (z : Node) : Prop :=
  z.level ≤ s.maxTreeLevel ∧ z.index < (s.treeLevels z.level).size

instance (s : Allocator) (z : Node) : Decidable (s.Describes z) :=
  inferInstanceAs (Decidable (_ ∧ _))

/-- The tables of `s'` are those of `s`, `distance` bytes further down. -/
structure Moved (distance : ℕ) (s s' : Allocator) : Prop where
  level : s'.maxTreeLevel = s.maxTreeLevel
  size : ∀ l ≤ s.maxTreeLevel, (s'.treeLevels l).size = (s.treeLevels l).size
  pointer : ∀ l ≤ s.maxTreeLevel,
    (s.treeLevels l).pointer = (s'.treeLevels l).pointer + distance
  mem : Relocated distance s.mem s'.mem

section Moved

variable {distance l : ℕ} {s s' : Allocator}

theorem Moved.describes_iff (h : Moved distance s s') {z : Node} :
    s'.Describes z ↔ s.Describes z := by
  rw [Allocator.Describes, Allocator.Describes, h.level, and_congr_right_iff]
  intro hl
  rw [h.size _ hl]

theorem Moved.getTreeElement (h : Moved distance s s') (hl : l ≤ s.maxTreeLevel) (n : ℕ) :
    Kmalloc.getTreeElement s l n = Kmalloc.getTreeElement s' l n := by
  unfold Kmalloc.getTreeElement
  simp only [h.pointer l hl, Nat.add_right_comm _ distance, h.mem.loadDword]

theorem Moved.setTreeElement (h : Moved distance s s') (hl : l ≤ s.maxTreeLevel) (n v : ℕ) :
    Moved distance (Kmalloc.setTreeElement s l n v) (Kmalloc.setTreeElement s' l n v) where
  level := h.level
  size := h.size
  pointer := h.pointer
  mem := by
    unfold Kmalloc.setTreeElement
    simp only [h.pointer l hl, Nat.add_right_comm _ distance, h.mem.loadDword]
    exact h.mem.storeDword _ _

/-- Every arena that `kset` sets up is a well laid out one, moved. -/
theorem exists_moved {s₀ : Allocator} {size offset : ℕ} (hsize : 5120 ≤ size)
    (hlt : size < 2 ^ 32) (hs : Same (kset s₀ size offset) s) :
    ∃ s', Moved offset s s' ∧ Layout s' := by
  obtain ⟨m, h₃, h₂₂, hlow, hhigh, -, heq⟩ := kset_eq s₀ offset hsize hlt
  have hlaid : Same (laidOut s₀ size offset m) s := by
    rw [heq] at hs
    split at hs
    · exact hs
    · exact (takeSegments_same _ _ _).trans hs
  obtain ⟨mem, rfl⟩ := hlaid
  obtain ⟨mem', hmem⟩ := exists_relocated offset mem
  have hlayout : Layout (laidOut (boot (fun _ => ⟨0, 0⟩) mem) size 0 m) :=
    laidOut_layout _ mem h₃ h₂₂ hlow hhigh (by omega)
  refine ⟨{ laidOut (boot (fun _ => ⟨0, 0⟩) mem) size 0 m with mem := mem' },
    ⟨rfl, ?_, ?_, hmem⟩, hlayout.same ⟨mem', rfl⟩⟩
  · intro l hl
    change l ≤ m at hl
    simp [laidOut, hl]
  · intro l hl
    change l ≤ m at hl
    simp only [laidOut, hl, if_true]
    rw [Nat.add_zero, levelPointer_base (_ + offset), levelPointer_base (size - _),
      Nat.add_right_comm]

end Moved

/-- Whatever `kset` lays out over whatever was there before, setting an element gives it
the young bits of the value and leaves every other element alone. -/
theorem setTreeElement_elements (s₀ : Allocator) {size : ℕ} (offset : ℕ) (hsize : 8192 ≤ size)
    (hlt : size < 2 ^ 32) {s : Allocator} (hs : Same (kset s₀ size offset) s) (v : ℕ) {a : Node}
    (ha : s.Describes a) :
    getTreeElement (setTreeElement s a.level a.index v) a.level a.index =
        v % 2 ^ (a.level + 1) ∧
      ∀ b, s.Describes b → b ≠ a →
        getTreeElement (setTreeElement s a.level a.index v) b.level b.index =
          getTreeElement s b.level b.index := by
  obtain ⟨s', hmoved, hlayout⟩ := exists_moved (by omega) hlt hs
  have hset := hmoved.setTreeElement ha.1 a.index v
  have hroot : ∀ z, s.Describes z → z ≤ s'.root := fun z hz => by
    obtain ⟨hz₁, hz₂⟩ := hmoved.describes_iff.mpr hz
    exact le_root_iff.mpr ⟨hz₁, hlayout.size_eq _ hz₁ ▸ hz₂⟩
  constructor
  · rw [hset.getTreeElement ha.1]
    exact (hlayout.tree_set (hroot a ha) v (hroot a ha)).trans (if_pos rfl)
  · intro b hb hne
    rw [hset.getTreeElement hb.1, hmoved.getTreeElement hb.1]
    exact (hlayout.tree_set (hroot a ha) v (hroot b hb)).trans (if_neg hne)

/-- The root of the smallest tree and the last leaf under it. -/
theorem setTreeElement_elements_small :
    let s := kset (boot (fun _ => ⟨0, 0⟩) fun _ => 0) 8192 4096
    getTreeElement (setTreeElement s 3 0 0x1f) 3 0 = 0xf ∧
      getTreeElement (setTreeElement s 3 0 0x1f) 0 7 = getTreeElement s 0 7 := by
  intro s
  have hroot : s.Describes ⟨3, 0⟩ := by decide +kernel
  have hset := setTreeElement_elements (boot (fun _ => ⟨0, 0⟩) fun _ => 0) 4096 (by decide)
    (by decide) (Same.refl s) 0x1f hroot
  exact ⟨hset.1, hset.2 ⟨0, 7⟩ (by decide +kernel) (by decide)⟩

end Neos.Kmalloc
