import Neos.Kmalloc.Sizes

/-!
# What the masks say

A block is allocated from the request that takes a node to the call that frees it,
also when it lies at address `0` and its client takes the pointer for a refusal.
Outside the allocated blocks a clear bit of a mask stands for a free run, and below
them every mask is zero.
-/

namespace Neos.Kmalloc

open BitMemory BuddyTree Relation

/-! ## Calls -/

/-- An arena in the lower half of the address space after `kset` and calls of `kmres`
for ranges of its leaf segments, with these ranges. -/
inductive Opened : Allocator → List Block → Prop
  | kset (beyond : ℕ → LevelDescriptor) (mem : Memory) {size offset : ℕ}
      (hsize : 8192 ≤ size) (hend : offset + size ≤ 2 ^ 31) :
      Opened (kset (boot beyond mem) size offset) []
  | kmres {s : Allocator} {reserved : List Block} {pointer size : ℕ} (hopened : Opened s reserved)
      (hstart : s.offset ≤ pointer) (hsize : 1 ≤ size)
      (hend : pointer + size ≤ s.offset + s.size)
      (hleaves : pointer + size ≤ s.offset + (s.treeLevels 0).size * blockSize) :
      Opened (kmres s pointer size) (⟨pointer, size⟩ :: reserved)

/-- The test of `kmalloc` at the root fails. -/
def Allocator.Refuses (s : Allocator) (size : ℕ) : Prop :=
  getTreeElement s s.maxTreeLevel 0 &&& (1 <<< requestLevel size) ≠ 0

/-- After `krealloc` has freed the block of a pointer, the node around it is not free
and `kmalloc` refuses. -/
def Allocator.RefusesMove (s : Allocator) (pointer size : ℕ) : Prop :=
  getTreeElement (kfree s pointer) (requestLevel size) (segmentOf s pointer >>> requestLevel size) ≠ 0 ∧
    (kfree s pointer).Refuses size

/-- One call, or one write of a client to its own block.  The blocks of the heap are
those that are allocated. -/
inductive Call (frames : ℕ) : Heap → Heap → Prop
  | malloc {h : Heap} {size r : ℕ} {s' : Allocator} (hsize : h.alloc.Serves size)
      (hroom : ¬ h.alloc.Refuses size) (hcall : kmalloc frames h.alloc size = some (r, s')) :
      Call frames h ⟨s', ⟨r, reservedSize size⟩ :: h.live⟩
  | mallocRefused {h : Heap} {size r : ℕ} {s' : Allocator} (hsize : h.alloc.Serves size)
      (hfull : h.alloc.Refuses size) (hcall : kmalloc frames h.alloc size = some (r, s')) :
      Call frames h ⟨s', h.live⟩
  | free {h : Heap} {b : Block} {pointer : ℕ} (hb : b ∈ h.live) (hp : pointer ∈ b.range) :
      Call frames h ⟨kfree h.alloc pointer, h.live.erase b⟩
  | reallocKeep {h : Heap} {b : Block} {size r : ℕ} {s' : Allocator} (hb : b ∈ h.live)
      (hsize : h.alloc.Serves size) (hfit : reservedSize size ≤ b.size)
      (hcall : krealloc frames h.alloc b.start size = some (r, s')) :
      Call frames h ⟨s', ⟨r, b.size⟩ :: h.live.erase b⟩
  | reallocMove {h : Heap} {b : Block} {size r : ℕ} {s' : Allocator} (hb : b ∈ h.live)
      (hsize : h.alloc.Serves size) (hfit : b.size < reservedSize size)
      (hroom : ¬ h.alloc.RefusesMove b.start size)
      (hcall : krealloc frames h.alloc b.start size = some (r, s')) :
      Call frames h ⟨s', ⟨r, reservedSize size⟩ :: h.live.erase b⟩
  | reallocRefused {h : Heap} {b : Block} {size r : ℕ} {s' : Allocator} (hb : b ∈ h.live)
      (hsize : h.alloc.Serves size) (hfit : b.size < reservedSize size)
      (hfull : h.alloc.RefusesMove b.start size)
      (hcall : krealloc frames h.alloc b.start size = some (r, s')) :
      Call frames h ⟨s', h.live.erase b⟩
  | write {h : Heap} {b : Block} {a v : ℕ} (hb : b ∈ h.live) (ha : a ∈ b.range) :
      Call frames h ⟨{ h.alloc with mem := store h.alloc.mem a v }, h.live⟩

/-! ## The tree records the allocated blocks -/

/-- The tree of an arena records the leaves taken for good and the nodes of the allocated
blocks, and nothing else if the arena ends below the top of the address space. -/
structure Charted (s : Allocator) (reserved : List Block) (h : Heap) (a : Holding) : Prop where
  same : Same s h.alloc
  invariant : Invariant (s.fixed reserved) h a
  blocks : (a.held.map h.alloc.block).Perm h.live
  exact : s.offset + s.size < 2 ^ 32 →
    Exact h.alloc.tree h.alloc.root (a.taken (s.fixed reserved))

section

variable {h h' : Heap} {a a' : Holding} {frames size r : ℕ} {s s' : Allocator}
  {reserved : List Block}

theorem Opened.exact (ho : Opened s reserved) :
    Layout s ∧ s.offset + s.size ≤ 2 ^ 31 ∧ (∀ x ∈ s.fixed reserved, x ≤ s.root) ∧
      Exact s.tree s.root (s.fixed reserved) ∧
      ∀ b ∈ reserved, s.offset ≤ b.start ∧ 1 ≤ b.size := by
  induction ho with
  | @kset beyond mem size offset hsize hend =>
      obtain ⟨hready, hoff, hsz, hexact⟩ := kset_ready beyond mem (by omega) (by omega)
        (by omega : offset + size ≤ 2 ^ 32)
      have hfixed : (Kmalloc.kset (boot beyond mem) size offset).fixed [] =
          systemSegments (Kmalloc.kset (boot beyond mem) size offset) := by
        simp [Allocator.fixed]
      rw [hfixed, hoff, hsz]
      exact ⟨hready.layout, hend, systemSegments_le_root _, hexact (by omega), by simp⟩
  | @kmres s reserved pointer size _ hstart hsize hend hleaves ih =>
      obtain ⟨hl, hhalf, hroot, hexact, hranges⟩ := ih
      obtain ⟨hsame, hroot', hexact'⟩ :=
        hl.kmres_exact hroot hexact (.inl hhalf) hstart hsize hend hleaves
      have hoffset : (Kmalloc.kmres s pointer size).offset = s.offset := by
        obtain ⟨m, hm⟩ := hsame
        rw [hm]
      have hsz : (Kmalloc.kmres s pointer size).size = s.size := by
        obtain ⟨m, hm⟩ := hsame
        rw [hm]
      rw [hoffset, hsz]
      refine ⟨hl.same hsame, hhalf, hroot', hexact', ?_⟩
      rintro b (_ | ⟨_, hb⟩)
      · exact ⟨hstart, hsize⟩
      · exact hranges b hb

theorem Opened.charted (ho : Opened s reserved) :
    Charted s reserved ⟨s, []⟩ ⟨s.tree, []⟩ := by
  obtain ⟨hl, -, hroot, hexact, -⟩ := ho.exact
  refine ⟨Same.refl s, Invariant.start hl Set.subset_union_left hroot
    (hexact.settled (fixed_antichain s reserved)), List.Perm.refl _, fun _ => ?_⟩
  rw [taken_nil]
  exact hexact

/-- Moves of the tree with the blocks that are allocated afterwards. -/
theorem Charted.advance (hc : Charted s reserved h a) {live live' : List Block}
    (ha : Advances (s.fixed reserved) h a ⟨s', live⟩ a') (hlive : (a'.held.map s'.block).Perm live') :
    Charted s reserved ⟨s', live'⟩ a' where
  same := hc.same.trans ha.same
  invariant :=
    { layout := ha.invariant.layout
      fixed_eq := ha.invariant.fixed_eq
      simulates := ⟨ha.invariant.simulates.mask, [], by simp, by simpa using hlive⟩
      sound := ha.invariant.sound }
  blocks := hlive
  exact hlt := ha.exact hc.invariant (fixed_antichain s reserved) (hc.exact hlt)

theorem Charted.exists_node (hc : Charted s reserved h a) {b : Block} (hb : b ∈ h.live) :
    ∃ x ∈ a.held, h.alloc.block x = b :=
  hc.invariant.simulates.exists_node hb

theorem Charted.block_mem_live (hc : Charted s reserved h a) {x : Node} (hx : x ∈ a.held) :
    h.alloc.block x ∈ h.live :=
  hc.blocks.mem_iff.mp (List.mem_map_of_mem hx)

theorem refuses_iff (s : Allocator) (size : ℕ) :
    s.Refuses size ↔ (s.tree s.root).testBit (requestLevel size) = true := by
  rw [Allocator.Refuses, ne_eq, and_shiftLeft_one_eq_zero_iff, Bool.not_eq_false]
  rfl

/-- The block that is allocated when a node is taken. -/
theorem block_of_level {y : Node} (hlevel : y.level = levelFor size) (hr : r = (s.block y).start) :
    s.block y = ⟨r, reservedSize size⟩ := by
  rw [hr, reservedSize, ← hlevel]
  rfl

/-- A request that finds room allocates a block. -/
theorem Charted.malloc (hc : Charted s reserved h a) (hsize : h.alloc.Serves size)
    (hroom : ¬ h.alloc.Refuses size) (hcall : kmalloc frames h.alloc size = some (r, s')) :
    ∃ a', Charted s reserved ⟨s', ⟨r, reservedSize size⟩ :: h.live⟩ a' := by
  rw [refuses_iff, Bool.not_eq_true] at hroom
  obtain ⟨y, hlevel, hstart, -, htake⟩ := hc.invariant.granted hsize hroom hcall
  have hblock : s'.block = h.alloc.block := funext htake.same.block_eq
  refine ⟨_, hc.advance htake ?_⟩
  rw [hblock, List.map_cons, block_of_level hlevel hstart]
  exact hc.blocks.cons _

theorem kmalloc_of_refuses (hfull : s.Refuses size) : kmalloc frames s size = some (0, s) := by
  unfold kmalloc
  exact if_pos hfull

theorem Charted.mallocRefused (hc : Charted s reserved h a) (hfull : h.alloc.Refuses size)
    (hcall : kmalloc frames h.alloc size = some (r, s')) :
    Charted s reserved ⟨s', h.live⟩ a := by
  rw [kmalloc_of_refuses hfull] at hcall
  cases hcall
  exact hc

/-- Away from address `0` a request is refused exactly if it is answered with null. -/
theorem Charted.refuses_iff_null (hc : Charted s reserved h a) (hoffset : h.alloc.offset ≠ 0)
    (hsize : h.alloc.Serves size) (hcall : kmalloc frames h.alloc size = some (r, s')) :
    h.alloc.Refuses size ↔ r = 0 := by
  by_cases hfull : h.alloc.Refuses size
  · rw [kmalloc_of_refuses hfull] at hcall
    cases hcall
    exact iff_of_true hfull rfl
  · refine iff_of_false hfull ?_
    rw [refuses_iff, Bool.not_eq_true] at hfull
    obtain ⟨y, -, rfl, -⟩ := hc.invariant.granted hsize hfull hcall
    exact Nat.ne_of_gt (Nat.add_pos_left (Nat.pos_of_ne_zero hoffset) _)

/-- Freeing a block. -/
theorem Charted.free (hc : Charted s reserved h a) {x : Node} (hx : x ∈ a.held) {pointer : ℕ}
    (hp : pointer ∈ (h.alloc.block x).range) :
    Charted s reserved ⟨kfree h.alloc pointer, h.live.erase (h.alloc.block x)⟩
      ⟨(kfree h.alloc pointer).tree, a.held.erase x⟩ := by
  have hfree := hc.invariant.free hx (hc.block_mem_live hx) hp
  have hblock : (kfree h.alloc pointer).block = h.alloc.block := funext hfree.same.block_eq
  refine hc.advance hfree ?_
  rw [hblock, List.map_erase (block_injective h.alloc)]
  exact hc.blocks.erase _

/-- Above the first segment of an allocated block there is a mask that is not zero, at
the level of the block at the latest. -/
theorem Charted.areaLevel_le (hc : Charted s reserved h a) {x : Node} (hx : x ∈ a.held) :
    ∃ l ≤ x.level, areaLevel h.alloc (segmentOf h.alloc (h.alloc.block x).start) = some l := by
  have hmask : h.alloc.tree x ≠ 0 := by
    rw [hc.invariant.settled.full x (Or.inr hx)]
    exact ones_ne_zero _
  have hleaf := hc.invariant.segmentOf_le hx (start_mem_range h.alloc x)
  have hlevel := hc.invariant.layout.level_le (hc.invariant.held_le_root hx)
  obtain ⟨l, hl, hle⟩ := areaLevelLoop_le hmask 32 0 _ hleaf (by omega)
  exact ⟨l, hle, hl⟩

/-- The level of an allocated block is found from its first address. -/
theorem Charted.areaLevel_eq (hc : Charted s reserved h a) (hlt : s.offset + s.size < 2 ^ 32)
    {x : Node} (hx : x ∈ a.held) :
    areaLevel h.alloc (segmentOf h.alloc (h.alloc.block x).start) = some x.level := by
  have hexact := hc.exact hlt
  have hmem : x ∈ a.taken (s.fixed reserved) := Or.inr hx
  have hlevel := hc.invariant.layout.level_le (hc.invariant.held_le_root hx)
  have hmask : h.alloc.tree x ≠ 0 := by
    rw [hexact.full x hmem]
    exact ones_ne_zero _
  have hleaf := hc.invariant.segmentOf_le hx (start_mem_range h.alloc x)
  exact areaLevelLoop_eq hmask (fun z hz => hexact.below x hmem z hz) 32 0 _ hleaf (by omega)

theorem block_size_lt_iff {x : Node} :
    (s.block x).size < reservedSize size ↔ x.level < levelFor size := by
  rw [← not_le, ← not_le, not_iff_not]
  exact reservedSize_le_iff

theorem Charted.reallocKeep (hc : Charted s reserved h a) {x : Node} (hx : x ∈ a.held) {l : ℕ}
    (hl : areaLevel h.alloc (segmentOf h.alloc (h.alloc.block x).start) = some l)
    (hle : requestLevel size ≤ l)
    (hcall : krealloc frames h.alloc (h.alloc.block x).start size = some (r, s')) :
    Charted s reserved ⟨s', ⟨r, (h.alloc.block x).size⟩ :: h.live.erase (h.alloc.block x)⟩ a := by
  obtain ⟨rfl, rfl⟩ := krealloc_keep hl hle hcall
  exact hc.advance (Advances.refl hc.invariant)
    (hc.blocks.trans (List.perm_cons_erase (hc.block_mem_live hx)))

/-- The requests that `krealloc` passes on find the state `kfree` leaves. -/
theorem Charted.reallocMove (hc : Charted s reserved h a) {x : Node} (hx : x ∈ a.held)
    (hsize : h.alloc.Serves size) {l : ℕ}
    (hl : areaLevel h.alloc (segmentOf h.alloc (h.alloc.block x).start) = some l)
    (hlt : l < levelFor size) (hroom : ¬ h.alloc.RefusesMove (h.alloc.block x).start size)
    (hcall : krealloc frames h.alloc (h.alloc.block x).start size = some (r, s')) :
    ∃ a', Charted s reserved ⟨s', ⟨r, reservedSize size⟩ :: h.live.erase (h.alloc.block x)⟩ a' := by
  have hfree := hc.free hx (start_mem_range h.alloc x)
  rcases hc.invariant.reallocMove_cases hx (hc.block_mem_live hx) hsize hl hlt hcall with
    ⟨rfl, hmalloc, htaken⟩ | ⟨y, s₂, hy⟩
  · -- a block at address `0`
    have hserves := (kfree_same h.alloc (h.alloc.block x).start).serves hsize
    refine hfree.malloc hserves (fun hfull => hroom ⟨?_, hfull⟩) hmalloc
    rw [Nat.shiftRight_eq_div_pow]
    exact htaken
  · have hgrown := hy.grown hlt
    have hblock : s'.block = h.alloc.block := funext hgrown.same.block_eq
    refine ⟨_, hc.advance hgrown ?_⟩
    rw [hblock, List.map_cons, block_of_level hy.level hy.start,
      List.map_erase (block_injective h.alloc)]
    exact (hc.blocks.erase _).cons _

/-- A `krealloc` that finds no room has freed the block. -/
theorem krealloc_refused {pointer l : ℕ} (hl : areaLevel s (segmentOf s pointer) = some l)
    (hlt : l < requestLevel size) (hfull : s.RefusesMove pointer size)
    (hcall : krealloc frames s pointer size = some (r, s')) : s' = kfree s pointer := by
  unfold krealloc at hcall
  dsimp only at hcall
  rw [hl, Option.bind_eq_bind, Option.bind_some, if_neg (Nat.not_le_of_lt hlt), if_neg hfull.1,
    kmalloc_of_refuses hfull.2] at hcall
  exact (Prod.mk.inj (Option.some.inj hcall)).2.symm

theorem Charted.reallocRefused (hc : Charted s reserved h a) {x : Node} (hx : x ∈ a.held) {l : ℕ}
    (hl : areaLevel h.alloc (segmentOf h.alloc (h.alloc.block x).start) = some l)
    (hlt : l < requestLevel size) (hfull : h.alloc.RefusesMove (h.alloc.block x).start size)
    (hcall : krealloc frames h.alloc (h.alloc.block x).start size = some (r, s')) :
    ∃ a', Charted s reserved ⟨s', h.live.erase (h.alloc.block x)⟩ a' := by
  rw [krealloc_refused hl hlt hfull hcall]
  exact ⟨_, hc.free hx (start_mem_range h.alloc x)⟩

/-- A client that writes to its own block. -/
theorem Charted.write (hc : Charted s reserved h a) {x : Node} (hx : x ∈ a.held) {w : ℕ}
    (hw : w ∈ (h.alloc.block x).range) (v : ℕ) :
    ∃ a', Charted s reserved ⟨{ h.alloc with mem := store h.alloc.mem w v }, h.live⟩ a' := by
  have hwrite := hc.invariant.write hx hw v
  have hblock : { h.alloc with mem := store h.alloc.mem w v }.block = h.alloc.block :=
    funext hwrite.same.block_eq
  refine ⟨_, hc.advance hwrite ?_⟩
  rw [hblock]
  exact hc.blocks

/-- Every call keeps the record. -/
theorem Charted.call (hc : Charted s reserved h a) (hlt : s.offset + s.size < 2 ^ 32)
    (hcall : Call frames h h') : ∃ a', Charted s reserved h' a' := by
  cases hcall with
  | malloc hsize hroom hcall => exact hc.malloc hsize hroom hcall
  | mallocRefused _ hfull hcall => exact ⟨a, hc.mallocRefused hfull hcall⟩
  | free hb hp =>
      obtain ⟨x, hx, rfl⟩ := hc.exists_node hb
      exact ⟨_, hc.free hx hp⟩
  | reallocKeep hb hsize hfit hcall =>
      obtain ⟨x, hx, rfl⟩ := hc.exists_node hb
      refine ⟨a, hc.reallocKeep hx (hc.areaLevel_eq hlt hx) ?_ hcall⟩
      rw [hsize.level_eq]
      exact reservedSize_le_iff.mp hfit
  | reallocMove hb hsize hfit hroom hcall =>
      obtain ⟨x, hx, rfl⟩ := hc.exists_node hb
      exact hc.reallocMove hx hsize (hc.areaLevel_eq hlt hx) (block_size_lt_iff.mp hfit) hroom hcall
  | reallocRefused hb hsize hfit hfull hcall =>
      obtain ⟨x, hx, rfl⟩ := hc.exists_node hb
      refine hc.reallocRefused hx (hc.areaLevel_eq hlt hx) ?_ hfull hcall
      rw [hsize.level_eq]
      exact block_size_lt_iff.mp hfit
  | write hb hw =>
      obtain ⟨x, hx, rfl⟩ := hc.exists_node hb
      exact hc.write hx hw _

/-- Whole runs keep the record. -/
theorem Charted.run (hc : Charted s reserved h a) (hlt : s.offset + s.size < 2 ^ 32)
    (hrun : ReflTransGen (Call frames) h h') : ∃ a', Charted s reserved h' a' := by
  induction hrun with
  | refl => exact ⟨a, hc⟩
  | tail _ hcall ih =>
      obtain ⟨a₁, h₁⟩ := ih
      exact h₁.call hlt hcall

/-! ## Bits and free runs -/

/-- A node of the tree lies strictly below the node of an allocated block. -/
def Heap.StrictlyBelow (h : Heap) (z : Node) : Prop := ∃ x : Node, h.alloc.block x ∈ h.live ∧ z < x

theorem Charted.below_eq_zero (hc : Charted s reserved h a) (hlt : s.offset + s.size < 2 ^ 32)
    {z : Node} (hz : h.StrictlyBelow z) : h.alloc.tree z = 0 := by
  obtain ⟨x, hlive, hbelow⟩ := hz
  obtain ⟨y, hy, heq⟩ := hc.exists_node hlive
  rw [block_injective h.alloc heq] at hy
  exact (hc.exact hlt).below x (Or.inr hy) z hbelow

theorem Charted.testBit_iff (hc : Charted s reserved h a) (hlt : s.offset + s.size < 2 ^ 32)
    (hranges : ∀ b ∈ reserved, h.alloc.offset ≤ b.start ∧ 1 ≤ b.size) {z : Node}
    (hroot : z ≤ h.alloc.root) (hz : ¬ h.StrictlyBelow z) {k : ℕ} (hk : k ≤ z.level) :
    (h.alloc.tree z).testBit k = false ↔ ∃ j, (⟨k, j⟩ : Node) ≤ z ∧ FreeRun h reserved k j := by
  have hnode : (⟨k + (z.level - k), z.index⟩ : Node) = z := by
    rw [Nat.add_sub_cancel' hk]
  have habove : ∀ x ∈ a.taken (s.fixed reserved), ¬ z < x := by
    rintro x (hx | hx) habove
    · have hlevel := Node.level_lt habove
      rw [fixed_level x hx] at hlevel
      exact Nat.not_lt_zero _ hlevel
    · exact hz ⟨x, hc.block_mem_live hx, habove⟩
  have hbit := (hc.exact hlt).testBit_iff (hc.invariant.sound.antichain (fixed_antichain s reserved))
    hc.invariant.layout.tree_bounded (k := k) (z.level - k) z.index (by rwa [hnode])
    (by rwa [hnode])
  rw [hnode] at hbit
  rw [hbit]
  have hinv := hc.invariant
  rw [← hc.same.fixed_eq reserved] at hinv ⊢
  have hfree : ∀ j, FreeRun h reserved k j ↔
      (⟨k, j⟩ : Node) ≤ h.alloc.root ∧ Free (a.taken (h.alloc.fixed reserved)) ⟨k, j⟩ :=
    fun j => hinv.freeRun_iff (fun _ hx => hc.block_mem_live hx) hranges
  constructor
  · rintro ⟨⟨l, j⟩, rfl, hle, hap⟩
    exact ⟨j, hle, (hfree j).mpr ⟨hle.trans hroot, hap⟩⟩
  · rintro ⟨j, hle, hj⟩
    exact ⟨⟨k, j⟩, rfl, hle, ((hfree j).mp hj).2⟩

/-- In every reachable state the masks strictly below an allocated block are zero, and
elsewhere a bit is clear exactly when its node contains a free run of that length. -/
theorem bit_clear_iff_freeRun (hopened : Opened s reserved)
    (hrun : ReflTransGen (Call frames) ⟨s, []⟩ h) {l n : ℕ} (hl : l ≤ h.alloc.maxTreeLevel)
    (hn : n < (h.alloc.treeLevels l).size) :
    (h.StrictlyBelow ⟨l, n⟩ → getTreeElement h.alloc l n = 0) ∧
      (¬ h.StrictlyBelow ⟨l, n⟩ → ∀ k ≤ l, (getTreeElement h.alloc l n).testBit k = false ↔
        ∃ j, (⟨k, j⟩ : Node) ≤ ⟨l, n⟩ ∧ FreeRun h reserved k j) := by
  obtain ⟨-, hhalf, -, -, hranges⟩ := hopened.exact
  have hlt : s.offset + s.size < 2 ^ 32 := hhalf.trans_lt (by decide)
  obtain ⟨a, hc⟩ := hopened.charted.run hlt hrun
  have hoffset : h.alloc.offset = s.offset := by
    obtain ⟨m, hm⟩ := hc.same
    rw [hm]
  rw [hc.invariant.layout.size_eq l hl] at hn
  have hroot : (⟨l, n⟩ : Node) ≤ h.alloc.root := le_root_iff.mpr ⟨hl, hn⟩
  exact ⟨hc.below_eq_zero hlt, fun hz k hk => hc.testBit_iff hlt (hoffset ▸ hranges) hroot hz hk⟩

end

theorem smallArena_opened : Opened smallArena [] := .kset _ _ (by decide) (by decide)

/-- After one request the masks of the small arena tell the free runs. -/
theorem bit_clear_iff_freeRun_smallArena :
    ∃ h : Heap, ReflTransGen (Call 64) ⟨smallArena, []⟩ h ∧ h.live = [⟨4096, 1024⟩] ∧
      (h.StrictlyBelow ⟨1, 0⟩ → getTreeElement h.alloc 1 0 = 0) ∧
      (¬ h.StrictlyBelow ⟨1, 0⟩ → ∀ k ≤ 1, (getTreeElement h.alloc 1 0).testBit k = false ↔
        ∃ j, (⟨k, j⟩ : Node) ≤ ⟨1, 0⟩ ∧ FreeRun h [] k j) := by
  have hfields : (kmalloc 64 smallArena 1000).map
      (fun p => (p.1, p.2.maxTreeLevel, (p.2.treeLevels 1).size)) = some (4096, 3, 4) := by
    decide +kernel
  obtain ⟨⟨r, s'⟩, hcall, hproj⟩ := Option.map_eq_some_iff.mp hfields
  simp only [Prod.mk.injEq] at hproj
  obtain ⟨rfl, hmax, hnodes⟩ := hproj
  have hroom : ¬ smallArena.Refuses 1000 := by
    rw [refuses_iff]
    decide +kernel
  have hrun : ReflTransGen (Call 64) ⟨smallArena, []⟩ ⟨s', [⟨4096, reservedSize 1000⟩]⟩ :=
    .single (.malloc smallArena_serves hroom hcall)
  have hblock : reservedSize 1000 = 1024 := by
    rw [reservedSize, levelFor_thousand]
    rfl
  rw [hblock] at hrun
  refine ⟨_, hrun, rfl, bit_clear_iff_freeRun smallArena_opened hrun ?_ ?_⟩
  · rw [hmax]
    decide
  · rw [hnodes]
    decide

end Neos.Kmalloc
