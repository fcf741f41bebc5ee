import Neos.Kmalloc.Summaries
import Neos.Kmalloc.Tables

/-!
# The elements a call reads and writes

For each routine of the allocator the elements on which it calls `gettreeelement` and
`settreeelement`, in the order of the calls.  A routine uses the pointers of their
levels and of no others, so descriptors behind the root matter only where the two
upward loops pass the root.
-/

namespace Neos.Kmalloc

open BitMemory BuddyTree

/-! ## Accesses -/

/-- The accesses of `buddify`. -/
def buddifyAccesses (level node : ℕ) : List Node :=
  [⟨level - 1, node * 2⟩, ⟨level - 1, node * 2 + 1⟩, ⟨level, node⟩]

/-- The accesses of the loop of `full_buddify`. -/
def fullBuddifyLoopAccesses (maxTreeLevel : ℕ) : ℕ → ℕ → ℕ → List Node
  | 0, _, _ => []
  | fuel + 1, level, node =>
      let level := level + 1
      let node := node / 2
      buddifyAccesses level node ++
        if level < maxTreeLevel then fullBuddifyLoopAccesses maxTreeLevel fuel level node else []

/-- The accesses of `full_buddify`. -/
def fullBuddifyAccesses (s : Allocator) (level node : ℕ) : List Node :=
  fullBuddifyLoopAccesses s.maxTreeLevel (s.maxTreeLevel + 1) level node

/-- The accesses of `levelbuddify`. -/
def levelBuddifyLoopAccesses (level endNode : ℕ) : ℕ → ℕ → List Node
  | 0, _ => []
  | fuel + 1, node =>
      buddifyAccesses level node ++
        if node + 1 ≤ endNode then levelBuddifyLoopAccesses level endNode fuel (node + 1) else []

/-- The accesses of the loop of `areafull_buddify`. -/
def areafullBuddifyLoopAccesses (maxTreeLevel : ℕ) : ℕ → ℕ → ℕ → ℕ → List Node
  | 0, _, _, _ => []
  | fuel + 1, level, startNode, endNode =>
      let level := level + 1
      let startNode := startNode / 2
      let endNode := endNode / 2
      levelBuddifyLoopAccesses level endNode (endNode + 1) startNode ++
        if level ≤ maxTreeLevel then
          areafullBuddifyLoopAccesses maxTreeLevel fuel level startNode endNode
        else []

/-- The accesses of `areafull_buddify`. -/
def areafullBuddifyAccesses (s : Allocator) (level startNode endNode : ℕ) : List Node :=
  areafullBuddifyLoopAccesses s.maxTreeLevel (s.maxTreeLevel + 2) level startNode endNode

/-- The accesses of `areasettreeelement`. -/
def areaSetTreeElementLoopAccesses (level endNode : ℕ) : ℕ → ℕ → List Node
  | 0, _ => []
  | fuel + 1, node =>
      ⟨level, node⟩ ::
        if node + 1 ≤ endNode then areaSetTreeElementLoopAccesses level endNode fuel (node + 1)
        else []

/-- The accesses of a call of `areasettreeelement` and one of `areafull_buddify`. -/
def takeSegmentsAccesses (s : Allocator) (first last : ℕ) : List Node :=
  areaSetTreeElementLoopAccesses 0 last (last + 1) first ++ areafullBuddifyAccesses s 0 first last

/-- The accesses of `kset`. -/
def ksetAccesses (s : Allocator) (size offset : ℕ) : List Node :=
  let s := kset s size offset
  let eax := s.end_ / blockSize
  let ecx := (s.treeLevels 0).size - 1
  if eax > ecx then [] else takeSegmentsAccesses s eax ecx

/-- The accesses of `allocate`. -/
def allocateAccesses (s : Allocator) (mask power : ℕ) : ℕ → ℕ → ℕ → List Node
  | 0, _, _ => []
  | frames + 1, level, node =>
      if power = level then []
      else
        let level := (level + 2 ^ 32 - 1) % 2 ^ 32
        let node := node * 2 % 2 ^ 32
        ⟨level, node⟩ ::
          if getTreeElement s level node &&& mask = 0 then
            allocateAccesses s mask power frames level node
          else allocateAccesses s mask power frames level ((node + 1) % 2 ^ 32)

/-- The accesses of marking a node and updating its ancestors. -/
def reserveAccesses (s : Allocator) (level node : ℕ) : List Node :=
  ⟨level, node⟩ :: fullBuddifyAccesses s level node

/-- The accesses of `kmalloc`. -/
def kmallocAccesses (frames : ℕ) (s : Allocator) (size : ℕ) : List Node :=
  let ecx := requestLevel size
  let mask := 1 <<< ecx
  ⟨s.maxTreeLevel, 0⟩ ::
    if getTreeElement s s.maxTreeLevel 0 &&& mask ≠ 0 then []
    else
      allocateAccesses s mask ecx frames s.maxTreeLevel 0 ++
        match allocate s mask ecx frames s.maxTreeLevel 0 with
        | none => []
        | some node => reserveAccesses s ecx node

/-- The accesses of `kfree`. -/
def kfreeAccesses (s : Allocator) (pointer : ℕ) : List Node :=
  let segment := segmentOf s pointer
  ⟨0, segment⟩ :: fullBuddifyAccesses s 0 segment

/-- The accesses of the loop `ra_ptl1`. -/
def areaLevelLoopAccesses (s : Allocator) : ℕ → ℕ → ℕ → List Node
  | 0, _, _ => []
  | fuel + 1, esi, edi =>
      ⟨esi, edi⟩ ::
        if getTreeElement s esi edi = 0 then areaLevelLoopAccesses s fuel (esi + 1) (edi / 2)
        else []

/-- The accesses of `krealloc` behind the loop `ra_ptl1`. -/
def moveAccesses (frames : ℕ) (s : Allocator) (pointer newSize : ℕ) : List Node :=
  let ebx := requestLevel newSize
  let node := segmentOf s pointer >>> ebx
  kfreeAccesses s pointer ++ ⟨ebx, node⟩ ::
    if getTreeElement (kfree s pointer) ebx node = 0 then reserveAccesses s ebx node
    else kmallocAccesses frames (kfree s pointer) newSize

/-- The accesses of `krealloc`. -/
def kreallocAccesses (frames : ℕ) (s : Allocator) (pointer newSize : ℕ) : List Node :=
  let segment := segmentOf s pointer
  areaLevelLoopAccesses s 32 0 segment ++
    match areaLevel s segment with
    | none => []
    | some esi =>
        if esi ≥ requestLevel newSize then [] else moveAccesses frames s pointer newSize

/-- The accesses of `kmres`. -/
def kmresAccesses (s : Allocator) (pointer size : ℕ) : List Node :=
  let low := toInt s.offset
  let high := toInt (s.offset + s.size + 2 ^ 32 - 1)
  let last := toWord (clamp (toInt (pointer + size + 2 ^ 32 - 1)) low high)
  let first := toWord (clamp (toInt pointer) low high)
  takeSegmentsAccesses s (segmentOf s first) (segmentOf s last)

/-! ## What the accesses depend on -/

/-- The allocator with another table of descriptors. -/
def Allocator.withLevels (s : Allocator) (levels : ℕ → LevelDescriptor) : Allocator :=
  { s with treeLevels := levels }

/-- The tables of a level lie at the same address. -/
def Agrees (levels : ℕ → LevelDescriptor) (s : Allocator) (level : ℕ) : Prop :=
  (levels level).pointer = (s.treeLevels level).pointer

section

variable {levels : ℕ → LevelDescriptor} {s s' : Allocator}
  {frames size pointer level node v l : ℕ}

theorem Same.agrees (hs : Same s s') (h : Agrees levels s level) : Agrees levels s' level := by
  obtain ⟨m, rfl⟩ := hs
  exact h

theorem getTreeElement_withLevels (h : Agrees levels s level) :
    getTreeElement (s.withLevels levels) level node = getTreeElement s level node := by
  unfold getTreeElement Allocator.withLevels
  dsimp only
  rw [h]

theorem setTreeElement_withLevels (h : Agrees levels s level) :
    setTreeElement (s.withLevels levels) level node v =
      (setTreeElement s level node v).withLevels levels := by
  unfold setTreeElement Allocator.withLevels
  dsimp only
  rw [h]

theorem buddify_withLevels (h : ∀ z ∈ buddifyAccesses level node, Agrees levels s z.level) :
    buddify (s.withLevels levels) level node = (buddify s level node).withLevels levels := by
  simp only [buddifyAccesses, List.forall_mem_cons, List.not_mem_nil, false_imp_iff, implies_true,
    and_true] at h
  obtain ⟨hleft, hright, hself⟩ := h
  unfold buddify
  dsimp only
  rw [getTreeElement_withLevels hleft, getTreeElement_withLevels hright,
    setTreeElement_withLevels hself]

theorem fullBuddifyLoop_withLevels :
    ∀ (fuel : ℕ) (s : Allocator) (level node : ℕ),
      (∀ z ∈ fullBuddifyLoopAccesses s.maxTreeLevel fuel level node, Agrees levels s z.level) →
      fullBuddifyLoop fuel (s.withLevels levels) level node =
        (fullBuddifyLoop fuel s level node).withLevels levels
  | 0, _, _, _, _ => rfl
  | fuel + 1, s, level, node, h => by
      rw [fullBuddifyLoopAccesses, List.forall_mem_append] at h
      have hsame := buddify_same s (level + 1) (node / 2)
      have hmax : (buddify s (level + 1) (node / 2)).maxTreeLevel = s.maxTreeLevel := rfl
      rw [fullBuddifyLoop, fullBuddifyLoop, buddify_withLevels h.1]
      simp only [Allocator.withLevels, hmax]
      split
      · next hmore =>
          refine fullBuddifyLoop_withLevels fuel _ _ _ fun z hz => hsame.agrees (h.2 z ?_)
          rw [if_pos hmore]
          exact hz
      · rfl

theorem setFullBuddify_withLevels
    (h : ∀ z ∈ reserveAccesses s level node, Agrees levels s z.level) :
    fullBuddify (setTreeElement (s.withLevels levels) level node v) level node =
      (fullBuddify (setTreeElement s level node v) level node).withLevels levels := by
  rw [reserveAccesses, List.forall_mem_cons] at h
  rw [setTreeElement_withLevels h.1]
  exact fullBuddifyLoop_withLevels _ _ _ _ h.2

theorem reserve_withLevels (h : ∀ z ∈ reserveAccesses s level node, Agrees levels s z.level) :
    reserve (s.withLevels levels) level node = (reserve s level node).withLevels levels :=
  setFullBuddify_withLevels h

theorem kfree_withLevels (h : ∀ z ∈ kfreeAccesses s pointer, Agrees levels s z.level) :
    kfree (s.withLevels levels) pointer = (kfree s pointer).withLevels levels :=
  setFullBuddify_withLevels h

theorem allocate_withLevels {mask power : ℕ} :
    ∀ (frames level node : ℕ),
      (∀ z ∈ allocateAccesses s mask power frames level node, Agrees levels s z.level) →
      allocate (s.withLevels levels) mask power frames level node =
        allocate s mask power frames level node
  | 0, _, _, _ => rfl
  | frames + 1, level, node, h => by
      rw [allocateAccesses] at h
      rw [allocate, allocate]
      split
      · rfl
      · next hne =>
          rw [if_neg hne, List.forall_mem_cons] at h
          obtain ⟨hchild, hrest⟩ := h
          dsimp only
          rw [getTreeElement_withLevels hchild]
          split
          · next hfree =>
              rw [if_pos hfree] at hrest
              exact allocate_withLevels frames _ _ hrest
          · next htaken =>
              rw [if_neg htaken] at hrest
              exact allocate_withLevels frames _ _ hrest

theorem kmalloc_withLevels (h : ∀ z ∈ kmallocAccesses frames s size, Agrees levels s z.level) :
    kmalloc frames (s.withLevels levels) size =
      (kmalloc frames s size).map fun p => (p.1, p.2.withLevels levels) := by
  rw [kmallocAccesses, List.forall_mem_cons] at h
  obtain ⟨hroot, h⟩ := h
  have hget : getTreeElement (s.withLevels levels) (s.withLevels levels).maxTreeLevel 0 =
      getTreeElement s s.maxTreeLevel 0 := getTreeElement_withLevels hroot
  unfold kmalloc
  dsimp only
  rw [hget]
  split
  · rfl
  · next hroom =>
      rw [if_neg hroom, List.forall_mem_append] at h
      obtain ⟨hdown, hup⟩ := h
      have hallocate := allocate_withLevels _ _ _ hdown
      rw [show (s.withLevels levels).maxTreeLevel = s.maxTreeLevel from rfl, hallocate]
      split
      · rfl
      · next node hnode =>
          rw [hnode] at hup
          rw [reserve_withLevels hup]
          rfl

theorem areaLevelLoop_withLevels :
    ∀ (fuel level node : ℕ),
      (∀ z ∈ areaLevelLoopAccesses s fuel level node, Agrees levels s z.level) →
      areaLevelLoop (s.withLevels levels) fuel level node = areaLevelLoop s fuel level node
  | 0, _, _, _ => rfl
  | fuel + 1, level, node, h => by
      rw [areaLevelLoopAccesses, List.forall_mem_cons] at h
      obtain ⟨hself, hrest⟩ := h
      rw [areaLevelLoop, areaLevelLoop, getTreeElement_withLevels hself]
      split
      · next hzero =>
          rw [if_pos hzero] at hrest
          exact areaLevelLoop_withLevels fuel _ _ hrest
      · rfl

theorem segmentOf_withLevels : segmentOf (s.withLevels levels) pointer = segmentOf s pointer := rfl

theorem reallocReturn_withLevels {result : ℕ} :
    reallocReturn (s.withLevels levels) pointer level result =
      ((reallocReturn s pointer level result).1,
        (reallocReturn s pointer level result).2.withLevels levels) := rfl

/-- What `krealloc` does with a block that is too small, after `kfree`. -/
def moveBlock (frames : ℕ) (s : Allocator) (pointer node newSize level : ℕ) :
    Option (ℕ × Allocator) :=
  if getTreeElement s (requestLevel newSize) node = 0 then
    some (reallocReturn (reserve s (requestLevel newSize) node) pointer level
      ((node <<< requestLevel newSize) * blockSize + s.offset))
  else
    (kmalloc frames s newSize).bind fun p =>
      if p.1 = 0 then some (0, p.2) else some (reallocReturn p.2 pointer level p.1)

theorem krealloc_none (hl : areaLevel s (segmentOf s pointer) = none) :
    krealloc frames s pointer size = none := by
  unfold krealloc
  dsimp only
  rw [hl]
  rfl

theorem krealloc_eq (hl : areaLevel s (segmentOf s pointer) = some l) :
    krealloc frames s pointer size =
      if l ≥ requestLevel size then some (reallocReturn s pointer l pointer)
      else moveBlock frames (kfree s pointer) pointer
        (segmentOf s pointer >>> requestLevel size) size l := by
  unfold krealloc
  dsimp only
  rw [hl, Option.bind_eq_bind, Option.bind_some]
  rfl

theorem withLevels_offset : (s.withLevels levels).offset = s.offset := rfl

theorem moveBlock_withLevels
    (hnode : Agrees levels s (requestLevel size))
    (h : ∀ z ∈ (if getTreeElement s (requestLevel size) node = 0 then
      reserveAccesses s (requestLevel size) node else kmallocAccesses frames s size),
        Agrees levels s z.level) :
    moveBlock frames (s.withLevels levels) pointer node size l =
      (moveBlock frames s pointer node size l).map fun p => (p.1, p.2.withLevels levels) := by
  unfold moveBlock
  rw [getTreeElement_withLevels hnode]
  split
  · next hzero =>
      rw [if_pos hzero] at h
      rw [reserve_withLevels h, withLevels_offset, reallocReturn_withLevels, Option.map_some]
  · next htaken =>
      rw [if_neg htaken] at h
      rw [kmalloc_withLevels h]
      cases kmalloc frames s size with
      | none => rfl
      | some p =>
          rw [Option.map_some, Option.bind_some, Option.bind_some]
          dsimp only
          split
          · rw [Option.map_some]
          · rw [Option.map_some, reallocReturn_withLevels]

theorem Same.reserveAccesses_eq (hs : Same s s') :
    reserveAccesses s level node = reserveAccesses s' level node := by
  obtain ⟨m, rfl⟩ := hs
  rfl

theorem krealloc_withLevels
    (h : ∀ z ∈ kreallocAccesses frames s pointer size, Agrees levels s z.level) :
    krealloc frames (s.withLevels levels) pointer size =
      (krealloc frames s pointer size).map fun p => (p.1, p.2.withLevels levels) := by
  rw [kreallocAccesses, List.forall_mem_append] at h
  obtain ⟨hup, h⟩ := h
  have hlevel : areaLevel (s.withLevels levels) (segmentOf (s.withLevels levels) pointer) =
      areaLevel s (segmentOf s pointer) := by
    rw [segmentOf_withLevels]
    exact areaLevelLoop_withLevels _ _ _ hup
  cases hl : areaLevel s (segmentOf s pointer) with
  | none => rw [krealloc_none hl, krealloc_none (hlevel.trans hl), Option.map_none]
  | some l =>
      rw [hl] at h
      dsimp only at h
      rw [krealloc_eq hl, krealloc_eq (hlevel.trans hl)]
      split
      · rw [Option.map_some, reallocReturn_withLevels]
      · next hmove =>
          rw [if_neg hmove, moveAccesses, List.forall_mem_append, List.forall_mem_cons] at h
          obtain ⟨hfree, hnode, h⟩ := h
          have hsame := kfree_same s pointer
          rw [kfree_withLevels hfree, segmentOf_withLevels,
            moveBlock_withLevels (hsame.agrees hnode) fun z hz => hsame.agrees (h z ?_)]
          rwa [hsame.reserveAccesses_eq]

end

/-! ## Accesses inside the tree -/

/-- The descriptors are those of a tree with at least two leaves. -/
structure Shaped (s : Allocator) : Prop where
  one_le : 1 ≤ s.maxTreeLevel
  le_twentyTwo : s.maxTreeLevel ≤ 22
  size_eq : ∀ l ≤ s.maxTreeLevel, (s.treeLevels l).size = 2 ^ (s.maxTreeLevel - l)

section

variable {s s' : Allocator} {frames size pointer level node fuel : ℕ}

theorem Shaped.same (h : Shaped s) (hs : Same s s') : Shaped s' := by
  obtain ⟨m, rfl⟩ := hs
  exact ⟨h.one_le, h.le_twentyTwo, h.size_eq⟩

theorem Layout.shaped (h : Layout s) : Shaped s :=
  ⟨by have := h.three_le; omega, h.le_twentyTwo, h.size_eq⟩

theorem Shaped.describes_iff (h : Shaped s) {z : Node} : s.Describes z ↔ z ≤ s.root := by
  rw [le_root_iff, Allocator.Describes, and_congr_right_iff]
  intro hl
  rw [h.size_eq _ hl]

theorem Same.describes_iff (h : Same s s') {z : Node} : s'.Describes z ↔ s.Describes z := by
  obtain ⟨m, rfl⟩ := h
  exact Iff.rfl

/-- Below the root `buddify` stays in the tree. -/
theorem buddifyAccesses_le_root (h : (⟨level + 1, node⟩ : Node) ≤ s.root) :
    ∀ z ∈ buddifyAccesses (level + 1) node, z ≤ s.root := by
  simp only [buddifyAccesses, Nat.add_sub_cancel, List.forall_mem_cons, List.not_mem_nil,
    false_imp_iff, implies_true, and_true]
  exact ⟨(Node.left_lt level node).le.trans h, (Node.right_lt level node).le.trans h, h⟩

theorem fullBuddifyLoopAccesses_le_root :
    ∀ (fuel level node : ℕ), (⟨level, node⟩ : Node) ≤ s.root → level < s.maxTreeLevel →
      ∀ z ∈ fullBuddifyLoopAccesses s.maxTreeLevel fuel level node, z ≤ s.root
  | 0, _, _, _, _ => by simp [fullBuddifyLoopAccesses]
  | fuel + 1, level, node, hroot, hlt => by
      have hparent := parent_le_root hroot hlt
      rw [fullBuddifyLoopAccesses, List.forall_mem_append]
      refine ⟨buddifyAccesses_le_root hparent, ?_⟩
      split
      · next hmore => exact fullBuddifyLoopAccesses_le_root fuel _ _ hparent hmore
      · simp

theorem reserveAccesses_le_root (hroot : (⟨level, node⟩ : Node) ≤ s.root)
    (hlt : level < s.maxTreeLevel) : ∀ z ∈ reserveAccesses s level node, z ≤ s.root := by
  rw [reserveAccesses, List.forall_mem_cons]
  exact ⟨hroot, fullBuddifyLoopAccesses_le_root _ _ _ hroot hlt⟩

theorem Shaped.kfreeAccesses_le_root (h : Shaped s)
    (hroot : (⟨0, segmentOf s pointer⟩ : Node) ≤ s.root) :
    ∀ z ∈ kfreeAccesses s pointer, z ≤ s.root :=
  reserveAccesses_le_root hroot h.one_le

/-- From a node of the tree down to some level `allocate` stays in the tree. -/
theorem Shaped.allocateAccesses_le_root (h : Shaped s) (mask power : ℕ) :
    ∀ (frames level node : ℕ), (⟨level, node⟩ : Node) ≤ s.root → power ≤ level →
      ∀ z ∈ allocateAccesses s mask power frames level node, z ≤ s.root
  | 0, _, _, _, _ => by simp [allocateAccesses]
  | frames + 1, level, node, hroot, hle => by
      rw [allocateAccesses]
      split
      · simp
      · next hne =>
          obtain ⟨l, rfl⟩ := Nat.exists_eq_add_of_le' (by omega : 1 ≤ level)
          have hbounds := le_root_iff.mp hroot
          simp only at hbounds
          have htop := h.le_twentyTwo
          have hpow : 2 ^ (s.maxTreeLevel - (l + 1)) ≤ 2 ^ 22 :=
            Nat.pow_le_pow_right (by decide) (by omega)
          have hlevel : (l + 1 + 2 ^ 32 - 1) % 2 ^ 32 = l := by omega
          have hnode : node * 2 % 2 ^ 32 = node * 2 := Nat.mod_eq_of_lt (by omega)
          have hnode' : (node * 2 + 1) % 2 ^ 32 = node * 2 + 1 := Nat.mod_eq_of_lt (by omega)
          have hleft := (Node.left_lt l node).le.trans hroot
          have hright := (Node.right_lt l node).le.trans hroot
          simp only [hlevel, hnode, hnode', List.forall_mem_cons]
          refine ⟨hleft, ?_⟩
          split
          · exact h.allocateAccesses_le_root mask power frames l _ hleft (by omega)
          · exact h.allocateAccesses_le_root mask power frames l _ hright (by omega)

/-- The result of `allocate` is a node of the tree. -/
theorem Shaped.allocate_le_root (h : Shaped s) {power n : ℕ} (hle : power ≤ s.maxTreeLevel)
    (hcall : allocate s (1 <<< power) power frames s.maxTreeLevel 0 = some n) :
    (⟨power, n⟩ : Node) ≤ s.root := by
  have hsum := Nat.add_sub_cancel' hle
  have hseek := allocate_eq h.le_twentyTwo (k := power) (s.maxTreeLevel - power) frames 0
    (hsum.symm ▸ le_rfl)
  have hdown := seek_le s.tree power (s.maxTreeLevel - power) 0
  rw [hsum] at hseek hdown
  rw [hseek] at hcall
  split at hcall
  · cases hcall
    exact hdown
  · cases hcall

/-- A refused request reads the root only, and one below the level of the root stays in
the tree. -/
theorem Shaped.kmallocAccesses_le_root (h : Shaped s) (frames : ℕ)
    (hcond : requestLevel size < s.maxTreeLevel ∨ s.Refuses size) :
    ∀ z ∈ kmallocAccesses frames s size, z ≤ s.root := by
  rw [kmallocAccesses, List.forall_mem_cons]
  refine ⟨le_rfl, ?_⟩
  split
  · simp
  · next hroom =>
      have hlt := hcond.resolve_right hroom
      rw [List.forall_mem_append]
      refine ⟨h.allocateAccesses_le_root _ _ frames _ 0 le_rfl hlt.le, ?_⟩
      split
      · simp
      · next node hnode => exact reserveAccesses_le_root (h.allocate_le_root hlt.le hnode) hlt

theorem areaLevelLoop_ge :
    ∀ (fuel level node : ℕ) {l : ℕ}, areaLevelLoop s fuel level node = some l → level ≤ l
  | 0, _, _, _, hl => by simp [areaLevelLoop] at hl
  | fuel + 1, level, node, l, hl => by
      rw [areaLevelLoop] at hl
      split at hl
      · have hge := areaLevelLoop_ge fuel _ _ hl
        omega
      · exact (Option.some.inj hl).le

/-- The loop `ra_ptl1` stays in the tree if it stops there. -/
theorem areaLevelLoopAccesses_le_root :
    ∀ (fuel level node : ℕ) {l : ℕ}, areaLevelLoop s fuel level node = some l →
      l ≤ s.maxTreeLevel → (⟨level, node⟩ : Node) ≤ s.root →
      ∀ z ∈ areaLevelLoopAccesses s fuel level node, z ≤ s.root
  | 0, _, _, _, hl, _, _ => by simp [areaLevelLoop] at hl
  | fuel + 1, level, node, l, hl, hle, hnode => by
      rw [areaLevelLoop] at hl
      rw [areaLevelLoopAccesses, List.forall_mem_cons]
      refine ⟨hnode, ?_⟩
      split at hl
      · next hzero =>
          have hge := areaLevelLoop_ge _ _ _ hl
          rw [if_pos hzero]
          exact areaLevelLoopAccesses_le_root fuel _ _ hl hle
            (parent_le_root hnode (by simp only; omega))
      · next hne =>
          rw [if_neg hne]
          simp

/-- Moving a block stays in the tree, if the block is not moved to the root. -/
theorem Shaped.moveAccesses_le_root (h : Shaped s) (frames : ℕ)
    (hroot : (⟨0, segmentOf s pointer⟩ : Node) ≤ s.root) (hle : requestLevel size ≤ s.maxTreeLevel)
    (hcond : requestLevel size < s.maxTreeLevel ∨ s.RefusesMove pointer size) :
    ∀ z ∈ moveAccesses frames s pointer size, z ≤ s.root := by
  have hsame := kfree_same s pointer
  have hnode :
      (⟨requestLevel size, segmentOf s pointer >>> requestLevel size⟩ : Node) ≤ s.root := by
    refine Node.le_of_le_of_level (z := ⟨0, segmentOf s pointer⟩) ⟨Nat.zero_le _, ?_⟩ hroot hle
    rw [Nat.shiftRight_eq_div_pow]
    rfl
  rw [moveAccesses, List.forall_mem_append, List.forall_mem_cons]
  refine ⟨h.kfreeAccesses_le_root hroot, hnode, ?_⟩
  split
  · next hzero =>
      exact reserveAccesses_le_root hnode (hcond.resolve_right fun hfull => hfull.1 hzero)
  · rw [← hsame.root_eq]
    refine (h.same hsame).kmallocAccesses_le_root frames (hcond.imp (fun hlt => ?_) And.right)
    obtain ⟨m, hm⟩ := hsame
    rwa [hm]

/-! ## Accesses behind the root -/

theorem not_describes_of_lt {z : Node} (h : s.maxTreeLevel < z.level) : ¬ s.Describes z :=
  fun hz => Nat.not_le_of_lt h hz.1

/-- Entered at the root, `full_buddify` leaves the tree. -/
theorem exists_reserveAccesses_beyond (s : Allocator) (node : ℕ) :
    ∃ z ∈ reserveAccesses s s.maxTreeLevel node, ¬ s.Describes z := by
  refine ⟨⟨s.maxTreeLevel + 1, node / 2⟩, ?_, not_describes_of_lt (Nat.lt_succ_self _)⟩
  simp [reserveAccesses, fullBuddifyAccesses, fullBuddifyLoopAccesses, buddifyAccesses]

theorem mem_levelBuddifyLoopAccesses (level endNode fuel node : ℕ) :
    ⟨level, node⟩ ∈ levelBuddifyLoopAccesses level endNode (fuel + 1) node := by
  simp [levelBuddifyLoopAccesses, buddifyAccesses]

/-- The loop of `areafull_buddify` ends one level above the root. -/
theorem exists_areafullBuddifyLoopAccesses {maxTreeLevel : ℕ} :
    ∀ (fuel level startNode endNode : ℕ), level ≤ maxTreeLevel → maxTreeLevel < level + fuel →
      ∃ z ∈ areafullBuddifyLoopAccesses maxTreeLevel fuel level startNode endNode,
        z.level = maxTreeLevel + 1
  | 0, level, _, _, hle, hlt => by omega
  | fuel + 1, level, startNode, endNode, hle, hlt => by
      rw [areafullBuddifyLoopAccesses]
      rcases Nat.lt_or_ge level maxTreeLevel with hmore | hlast
      · have hnext : level + 1 ≤ maxTreeLevel := hmore
        obtain ⟨z, hz, hlevel⟩ := exists_areafullBuddifyLoopAccesses fuel (level + 1)
          (startNode / 2) (endNode / 2) hnext (by omega)
        refine ⟨z, List.mem_append_right _ ?_, hlevel⟩
        rwa [if_pos hnext]
      · exact ⟨_, List.mem_append_left _ (mem_levelBuddifyLoopAccesses _ _ _ _),
          congrArg (· + 1) (le_antisymm hle hlast)⟩

/-- Marking segments leaves the tree. -/
theorem exists_takeSegmentsAccesses_beyond (s : Allocator) (first last : ℕ) :
    ∃ z ∈ takeSegmentsAccesses s first last, ¬ s.Describes z := by
  obtain ⟨z, hz, hlevel⟩ := exists_areafullBuddifyLoopAccesses (s.maxTreeLevel + 2) 0 first last
    (Nat.zero_le s.maxTreeLevel) (by omega)
  exact ⟨z, List.mem_append_right _ hz, not_describes_of_lt (by omega)⟩

/-- A granted request for the whole tree leaves the tree. -/
theorem exists_kmallocAccesses_beyond (hframes : 0 < frames)
    (hlevel : requestLevel size = s.maxTreeLevel) (hroom : ¬ s.Refuses size) :
    ∃ z ∈ kmallocAccesses frames s size, ¬ s.Describes z := by
  obtain ⟨fuel, rfl⟩ := Nat.exists_eq_add_of_le' hframes
  obtain ⟨z, hz, hbeyond⟩ := exists_reserveAccesses_beyond s 0
  refine ⟨z, ?_, hbeyond⟩
  rw [Allocator.Refuses] at hroom
  rw [kmallocAccesses, if_neg hroom, hlevel, allocate, if_pos rfl]
  exact List.mem_cons_of_mem _ (List.mem_append_right _ hz)

/-- A block that is moved to the root. -/
theorem exists_moveAccesses_beyond (hframes : 0 < frames)
    (hlevel : requestLevel size = s.maxTreeLevel) (hroom : ¬ s.RefusesMove pointer size) :
    ∃ z ∈ moveAccesses frames s pointer size, ¬ s.Describes z := by
  have hsame := kfree_same s pointer
  rw [moveAccesses]
  split
  · obtain ⟨z, hz, hbeyond⟩ := exists_reserveAccesses_beyond s
      (segmentOf s pointer >>> s.maxTreeLevel)
    rw [hlevel]
    exact ⟨z, List.mem_append_right _ (List.mem_cons_of_mem _ hz), hbeyond⟩
  · next htaken =>
      have hfull : ¬ (kfree s pointer).Refuses size := fun hfull => hroom ⟨htaken, hfull⟩
      obtain ⟨z, hz, hbeyond⟩ := exists_kmallocAccesses_beyond (s := kfree s pointer) hframes
        (by obtain ⟨m, hm⟩ := hsame; rwa [hm]) hfull
      rw [hsame.describes_iff] at hbeyond
      exact ⟨z, List.mem_append_right _ (List.mem_cons_of_mem _ hz), hbeyond⟩

end

end Neos.Kmalloc
