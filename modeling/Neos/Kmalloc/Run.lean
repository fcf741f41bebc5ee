import Neos.Kmalloc.Requests
import Neos.Library.BuddyRuns
import Mathlib.Data.List.Basic

/-!
# Runs of the allocator

The clients of the allocator own blocks.  Every call is simulated by moves of
the buddy tree: `kmalloc` takes a node, `kfree` releases one, and `krealloc`
keeps its node or releases it and takes another one.
-/

namespace Neos.Kmalloc

open BitMemory BuddyTree Relation

/-! ## Clients -/

/-- The allocator together with the blocks its clients own. -/
structure Heap where
  alloc : Allocator
  live : List Block

/-- The number of bytes reserved for a request. -/
def reservedSize (size : ℕ) : ℕ := 2 ^ levelFor size * blockSize

/-- The blocks after a request was answered with the pointer `r`.  A null
pointer is a refusal, even where the arena starts at address `0`. -/
def grant (live : List Block) (r size : ℕ) : List Block :=
  if r = 0 then live else ⟨r, reservedSize size⟩ :: live

/-- Requests between one byte and all leaves of the tree. -/
def Allocator.Serves (s : Allocator) (size : ℕ) : Prop :=
  1 ≤ size ∧ size < 2 ^ 32 ∧ size ≤ (s.treeLevels 0).size * blockSize

/-- One call, or one write of a client to its own block. -/
inductive Step (frames : ℕ) : Heap → Heap → Prop
  | malloc {h : Heap} {size r : ℕ} {s' : Allocator} (hsize : h.alloc.Serves size)
      (hcall : kmalloc frames h.alloc size = some (r, s')) :
      Step frames h ⟨s', grant h.live r size⟩
  | free {h : Heap} {b : Block} {pointer : ℕ} (hb : b ∈ h.live) (hp : pointer ∈ b.range) :
      Step frames h ⟨kfree h.alloc pointer, h.live.erase b⟩
  | reallocKeep {h : Heap} {b : Block} {size r z : ℕ} {s' : Allocator} (hb : b ∈ h.live)
      (hsize : h.alloc.Serves size) (hz : kmsz h.alloc b.start = some z)
      (hfit : reservedSize size ≤ z)
      (hcall : krealloc frames h.alloc b.start size = some (r, s')) :
      Step frames h ⟨s', ⟨r, b.size⟩ :: h.live.erase b⟩
  | reallocMove {h : Heap} {b : Block} {size r z : ℕ} {s' : Allocator} (hb : b ∈ h.live)
      (hsize : h.alloc.Serves size) (hz : kmsz h.alloc b.start = some z)
      (hfit : z < reservedSize size)
      (hcall : krealloc frames h.alloc b.start size = some (r, s')) :
      Step frames h ⟨s', grant (h.live.erase b) r size⟩
  | write {h : Heap} {b : Block} {a v : ℕ} (hb : b ∈ h.live) (ha : a ∈ b.range) :
      Step frames h ⟨{ h.alloc with mem := store h.alloc.mem a v }, h.live⟩

/-! ## Simulation by the buddy tree -/

/-- The held nodes are the live blocks and possibly a block at address `0`
that its client was never told about. -/
structure Simulates (h : Heap) (a : Holding) : Prop where
  mask : a.mask = h.alloc.tree
  blocks : ∃ leaked : List Block, (∀ b ∈ leaked, b.start = 0) ∧
    (a.held.map h.alloc.block).Perm (h.live ++ leaked)

/-- A well laid out arena whose taken nodes are apart and settled. -/
structure Invariant (fixed : Set Node) (h : Heap) (a : Holding) : Prop where
  layout : Layout h.alloc
  fixed_eq : systemSegments h.alloc ⊆ fixed
  simulates : Simulates h a
  sound : Sound h.alloc.root fixed a

section Simulation

variable {fixed : Set Node} {h : Heap} {a : Holding} {frames : ℕ}

theorem Allocator.Serves.level_eq {s : Allocator} {size : ℕ} (hs : s.Serves size) :
    requestLevel size = levelFor size :=
  requestLevel_eq hs.1 hs.2.1

theorem Same.serves {s s' : Allocator} (h : Same s s') {size : ℕ} (hs : s.Serves size) :
    s'.Serves size := by
  obtain ⟨m, rfl⟩ := h
  exact hs

theorem Allocator.Serves.level_le {s : Allocator} (h : Layout s) {size : ℕ}
    (hs : s.Serves size) : requestLevel size ≤ s.maxTreeLevel := by
  rw [hs.level_eq, levelFor_le_iff]
  have hleaves := h.size_eq 0 (Nat.zero_le _)
  rw [Nat.sub_zero] at hleaves
  rw [← hleaves]
  exact hs.2.2

/-- The node of a live block. -/
theorem Simulates.exists_node (hs : Simulates h a) {b : Block} (hb : b ∈ h.live) :
    ∃ x ∈ a.held, h.alloc.block x = b := by
  obtain ⟨leaked, -, hperm⟩ := hs.blocks
  have hmem : b ∈ a.held.map h.alloc.block :=
    hperm.mem_iff.mpr (List.mem_append_left _ hb)
  exact List.mem_map.mp hmem

theorem Invariant.apart_system (hi : Invariant fixed h a) {x : Node} (hx : x ∈ a.held) :
    ∀ z ∈ systemSegments h.alloc, Node.Apart z x :=
  fun z hz => hi.sound.fixed_apart z (hi.fixed_eq hz) x hx

theorem Invariant.held_le_root (hi : Invariant fixed h a) {x : Node} (hx : x ∈ a.held) :
    x ≤ h.alloc.root :=
  hi.sound.le_root x (Or.inr hx)

theorem Invariant.taken_le_root (hi : Invariant fixed h a) :
    ∀ x ∈ a.taken fixed, x ≤ h.alloc.root :=
  hi.sound.le_root

theorem Invariant.settled (hi : Invariant fixed h a) :
    Settled h.alloc.tree h.alloc.root (a.taken fixed) := by
  rw [← hi.simulates.mask]
  exact hi.sound.settled

/-- A pointer into a held block lies in a segment of its node. -/
theorem Invariant.segmentOf_le (hi : Invariant fixed h a) {x : Node} (hx : x ∈ a.held)
    {pointer : ℕ} (hp : pointer ∈ (h.alloc.block x).range) :
    (⟨0, segmentOf h.alloc pointer⟩ : Node) ≤ x := by
  have hend := block_end_le (hi.held_le_root hx) (hi.apart_system hx)
  have hmem := mem_block_iff.mp hp
  have hend' := hi.layout.end_eq
  have hpos := Nat.two_pow_pos (h.alloc.maxTreeLevel - 1)
  have hlast : pointer < (h.alloc.block x).start + (h.alloc.block x).size := hp.2
  have hlt : pointer < h.alloc.offset + h.alloc.size := by omega
  rw [hi.layout.segmentOf_eq hmem.1 hlt]
  exact Node.mem_leaves.mp hmem.2

/-- Answering a request with the block of a new node. -/
theorem grant_perm {nodes : List Node} {live leaked : List Block} {s : Allocator} {y : Node}
    {size r : ℕ} (hr : r = (s.block y).start) (hsize : y.level = levelFor size)
    (hleaked : ∀ b ∈ leaked, b.start = 0)
    (hperm : (nodes.map s.block).Perm (live ++ leaked)) :
    ∃ leaked' : List Block, (∀ b ∈ leaked', b.start = 0) ∧
      ((y :: nodes).map s.block).Perm (grant live r size ++ leaked') := by
  have hblock : s.block y = ⟨r, reservedSize size⟩ := by
    ext
    · exact hr.symm
    · rw [reservedSize, ← hsize]
      rfl
  rw [List.map_cons, hblock]
  by_cases hzero : r = 0
  · refine ⟨⟨r, reservedSize size⟩ :: leaked, ?_, ?_⟩
    · rintro b (_ | ⟨_, hb⟩)
      · exact hzero
      · exact hleaked b hb
    · rw [grant, if_pos hzero]
      exact (hperm.cons _).trans List.perm_middle.symm
  · refine ⟨leaked, hleaked, ?_⟩
    rw [grant, if_neg hzero]
    exact hperm.cons _

/-- Giving back the block of a node. -/
theorem erase_perm {nodes : List Node} {live leaked : List Block} {s : Allocator} {x : Node}
    (hx : s.block x ∈ live) (hperm : (nodes.map s.block).Perm (live ++ leaked)) :
    ((nodes.erase x).map s.block).Perm (live.erase (s.block x) ++ leaked) := by
  rw [List.map_erase (block_injective s), ← List.erase_append_left _ hx]
  exact hperm.erase _

end Simulation

/-! ## The calls as moves -/

/-- The arena goes from `h` to `h'` while the tree makes moves from `a` to
`a'`. -/
structure Advances (fixed : Set Node) (h : Heap) (a : Holding) (h' : Heap) (a' : Holding) :
    Prop where
  same : Same h.alloc h'.alloc
  moves : ReflTransGen (Move h.alloc.root fixed) a a'
  invariant : Invariant fixed h' a'

section Calls

variable {fixed : Set Node} {h h' h'' : Heap} {a a' a'' : Holding} {frames : ℕ}

theorem Advances.refl (hi : Invariant fixed h a) : Advances fixed h a h a :=
  ⟨Same.refl _, .refl, hi⟩

theorem Advances.trans (h₁ : Advances fixed h a h' a') (h₂ : Advances fixed h' a' h'' a'') :
    Advances fixed h a h'' a'' where
  same := h₁.same.trans h₂.same
  moves := h₁.moves.trans (h₁.same.root_eq ▸ h₂.moves)
  invariant := h₂.invariant

theorem Invariant.advance (hi : Invariant fixed h a) (hsame : Same h.alloc h'.alloc)
    (hs : Simulates h' a') (hm : Move h.alloc.root fixed a a') :
    Advances fixed h a h' a' where
  same := hsame
  moves := .single hm
  invariant :=
    { layout := hi.layout.same hsame
      fixed_eq := hsame.systemSegments_eq ▸ hi.fixed_eq
      simulates := hs
      sound := hsame.root_eq ▸ hi.sound.move hm }

/-- Exact masks stay exact. -/
theorem Advances.exact (ha : Advances fixed h a h' a') (hi : Invariant fixed h a)
    (hfixed : Antichain fixed)
    (hexact : Exact h.alloc.tree h.alloc.root (a.taken fixed)) :
    Exact h'.alloc.tree h'.alloc.root (a'.taken fixed) := by
  rw [← hi.simulates.mask] at hexact
  have hexact' := hi.sound.exact_run hfixed hexact ha.moves
  rwa [ha.invariant.simulates.mask, ← ha.same.root_eq] at hexact'

/-- Memory changes that leave the tree alone. -/
theorem Invariant.idle (hi : Invariant fixed h a) {s' : Allocator} (hsame : Same h.alloc s')
    (htree : ∀ z ≤ h.alloc.root, s'.tree z = h.alloc.tree z) :
    Advances fixed h a ⟨s', h.live⟩ ⟨s'.tree, a.held⟩ := by
  obtain ⟨leaked, hleaked, hperm⟩ := hi.simulates.blocks
  have hblock : s'.block = h.alloc.block := funext hsame.block_eq
  refine hi.advance hsame ⟨rfl, leaked, hleaked, ?_⟩ ?_
  · rw [hblock]
    exact hperm
  · rw [← hi.simulates.mask] at htree
    exact .idle htree

/-- Taking a node for a request. -/
theorem Invariant.take (hi : Invariant fixed h a) {s' : Allocator} {y : Node} {size : ℕ}
    (hsame : Same h.alloc s') (hroot : y ≤ h.alloc.root)
    (hapart : ∀ x ∈ a.taken fixed, Node.Apart x y)
    (hupdate : Updated h.alloc.tree s'.tree h.alloc.root y (ones y.level))
    (hlevel : y.level = levelFor size) :
    Advances fixed h a ⟨s', grant h.live (h.alloc.block y).start size⟩
      ⟨s'.tree, y :: a.held⟩ := by
  obtain ⟨leaked, hleaked, hperm⟩ := hi.simulates.blocks
  have hblock : s'.block = h.alloc.block := funext hsame.block_eq
  have hgrant := grant_perm (s := h.alloc) rfl hlevel hleaked hperm
  rw [← hi.simulates.mask] at hupdate
  refine hi.advance hsame ⟨rfl, ?_⟩ (.take hroot hapart hupdate)
  rw [hblock]
  exact hgrant

/-- `kfree` of a pointer into a live block releases the node of the block. -/
theorem Invariant.free (hi : Invariant fixed h a) {x : Node} (hx : x ∈ a.held)
    (hlive : h.alloc.block x ∈ h.live) {pointer : ℕ}
    (hp : pointer ∈ (h.alloc.block x).range) :
    Advances fixed h a ⟨kfree h.alloc pointer, h.live.erase (h.alloc.block x)⟩
      ⟨(kfree h.alloc pointer).tree, a.held.erase x⟩ := by
  obtain ⟨leaked, hleaked, hperm⟩ := hi.simulates.blocks
  have hsame := kfree_same h.alloc pointer
  have hblock : (kfree h.alloc pointer).block = h.alloc.block := funext hsame.block_eq
  have hq := hi.segmentOf_le hx hp
  have hupdate := hi.layout.kfree_updated (hq.trans (hi.held_le_root hx))
  rw [← hi.simulates.mask] at hupdate
  refine hi.advance hsame ⟨rfl, leaked, hleaked, ?_⟩ (.release hx hq hupdate)
  rw [hblock]
  exact erase_perm hlive hperm

/-- With room in the tree `kmalloc` takes a node. -/
theorem Invariant.granted (hi : Invariant fixed h a) {size r : ℕ} {s' : Allocator}
    (hsize : h.alloc.Serves size)
    (hbit : (h.alloc.tree h.alloc.root).testBit (requestLevel size) = false)
    (hcall : kmalloc frames h.alloc size = some (r, s')) :
    ∃ y : Node, y.level = levelFor size ∧ r = (h.alloc.block y).start ∧ y ≤ h.alloc.root ∧
      Advances fixed h a ⟨s', grant h.live r size⟩ ⟨s'.tree, y :: a.held⟩ := by
  obtain ⟨y, hlevel, hroot, hapart, hupdate, hsame, rfl⟩ := hi.layout.kmalloc_granted
    hi.taken_le_root hi.settled (hsize.level_le hi.layout) hbit hcall
  rw [hsize.level_eq] at hlevel
  exact ⟨y, hlevel, rfl, hroot, hi.take hsame hroot hapart hupdate hlevel⟩

/-- `kmalloc` takes a node or changes nothing. -/
theorem Invariant.malloc (hi : Invariant fixed h a) {size r : ℕ} {s' : Allocator}
    (hsize : h.alloc.Serves size) (hcall : kmalloc frames h.alloc size = some (r, s')) :
    (r = 0 ∧ s' = h.alloc) ∨
      ∃ y : Node, y.level = levelFor size ∧ r = (h.alloc.block y).start ∧
        y ≤ h.alloc.root ∧
        Advances fixed h a ⟨s', grant h.live r size⟩ ⟨s'.tree, y :: a.held⟩ := by
  cases hbit : (h.alloc.tree h.alloc.root).testBit (requestLevel size) with
  | false => exact Or.inr (hi.granted hsize hbit hcall)
  | true =>
      rw [hi.layout.kmalloc_refused frames (hsize.level_le hi.layout) hbit] at hcall
      cases hcall
      exact Or.inl ⟨rfl, rfl⟩

/-- The final copy of `krealloc` stays inside the new block. -/
theorem Invariant.copy (hi : Invariant fixed h a) (pointer : ℕ) {y : Node} (hy : y ∈ a.held)
    {level : ℕ} (hlevel : level ≤ y.level) :
    Advances fixed h a
      ⟨(reallocReturn h.alloc pointer level (h.alloc.block y).start).2, h.live⟩
      ⟨(reallocReturn h.alloc pointer level (h.alloc.block y).start).2.tree, a.held⟩ :=
  hi.idle ⟨_, rfl⟩ fun _ hz => hi.layout.tree_reallocReturn (hi.held_le_root hy)
    (hi.apart_system hy) hlevel hz

/-- The node around a released segment, when its mask is zero, is apart from
everything taken. -/
theorem Invariant.around_apart (hi : Invariant fixed h a) {x y : Node} {q : ℕ}
    (hx : ∀ z ∈ a.taken fixed, Node.Apart z x) (hq : (⟨0, q⟩ : Node) ≤ x)
    (hqy : (⟨0, q⟩ : Node) ≤ y) (hroot : y ≤ h.alloc.root) (hzero : h.alloc.tree y = 0) :
    ∀ z ∈ a.taken fixed, Node.Apart z y := by
  intro z hz
  have hbelow := hi.settled.not_le_of_eq_zero hi.layout.tree_bounded hz hroot hzero
  have habove : ¬ y ≤ z := fun hle => ((hx z hz).mono hq).2 (hqy.trans hle)
  exact ⟨hbelow, habove⟩

/-- A pointer to a block of a held node lies in the block. -/
theorem start_mem_range (s : Allocator) (x : Node) : (s.block x).start ∈ (s.block x).range := by
  have hpos : 0 < (s.block x).size := Nat.mul_pos (Nat.two_pow_pos _) (by decide)
  exact ⟨le_rfl, by omega⟩

/-- What `krealloc` does with a block that is too small, after releasing its node: it
takes a node `y` and copies the old area into it, or a new block is refused. -/
structure Regrown (frames : ℕ) (fixed : Set Node) (h : Heap) (a : Holding) (x : Node)
    (size r l : ℕ) (s' : Allocator) (y : Node) (s₂ : Allocator) : Prop where
  level : y.level = levelFor size
  start : r = (h.alloc.block y).start
  le_root : y ≤ h.alloc.root
  advances : Advances fixed h a ⟨s₂, grant (h.live.erase (h.alloc.block x)) r size⟩
    ⟨s₂.tree, y :: a.held.erase x⟩
  taken : s₂ = reserve (kfree h.alloc (h.alloc.block x).start) y.level y.index ∨
    kmalloc frames (kfree h.alloc (h.alloc.block x).start) size = some (r, s₂)
  copied : s' = (reallocReturn s₂ (h.alloc.block x).start l r).2

theorem Invariant.reallocMove_cases (hi : Invariant fixed h a) {x : Node} (hx : x ∈ a.held)
    (hlive : h.alloc.block x ∈ h.live) {size r l : ℕ} {s' : Allocator}
    (hsize : h.alloc.Serves size)
    (hl : areaLevel h.alloc (segmentOf h.alloc (h.alloc.block x).start) = some l)
    (hlt : l < levelFor size)
    (hcall : krealloc frames h.alloc (h.alloc.block x).start size = some (r, s')) :
    (r = 0 ∧ kmalloc frames (kfree h.alloc (h.alloc.block x).start) size = some (0, s') ∧
        (kfree h.alloc (h.alloc.block x).start).tree ⟨requestLevel size,
          segmentOf h.alloc (h.alloc.block x).start / 2 ^ requestLevel size⟩ ≠ 0) ∨
      ∃ y s₂, Regrown frames fixed h a x size r l s' y s₂ := by
  have hstart := start_mem_range h.alloc x
  have hfree := hi.free hx hlive hstart
  have hq := hi.segmentOf_le hx hstart
  rcases krealloc_cases hl hcall with ⟨hle, -, -⟩ | ⟨-, hcases⟩
  · rw [hsize.level_eq] at hle
    omega
  have hlevel := hsize.level_le hi.layout
  set pointer := (h.alloc.block x).start
  set q := segmentOf h.alloc pointer
  set s₁ := kfree h.alloc pointer with hs₁
  have hsame : Same h.alloc s₁ := hfree.same
  have hblock : s₁.block = h.alloc.block := funext hsame.block_eq
  have hserves := hsame.serves hsize
  rcases hcases with ⟨hzero, hr, hs'⟩ | ⟨hne, hr, hmalloc⟩ | ⟨-, hr, s₂, hmalloc, hs'⟩
  · -- the node around the block is free now
    set y : Node := ⟨requestLevel size, q / 2 ^ requestLevel size⟩ with hy
    have hqy : (⟨0, q⟩ : Node) ≤ y := ⟨Nat.zero_le _, rfl⟩
    have hroot' : y ≤ h.alloc.root :=
      Node.le_of_le_of_level hqy (hq.trans (hi.held_le_root hx)) hlevel
    have hroot : y ≤ s₁.root := hsame.root_eq ▸ hroot'
    have hapart := hfree.invariant.around_apart
      (fun z hz => hi.sound.apart_of_erase hx hz) hq hqy hroot hzero
    have hupdate := hfree.invariant.layout.reserve_updated hroot
    have hylevel : y.level = levelFor size := hsize.level_eq
    have htake := hfree.invariant.take (reserve_same s₁ _ _) hroot hapart hupdate hylevel
    rw [← hr] at htake
    exact Or.inr ⟨y, _, hylevel, by rw [hr, hblock], hroot', hfree.trans htake, Or.inl rfl, hs'⟩
  · -- no room: the old block is gone and nothing new is granted
    exact Or.inl ⟨hr, hmalloc, hne⟩
  · rcases hfree.invariant.malloc hserves hmalloc with ⟨hzero, -⟩ | ⟨y, hylevel, hry, hroot, htake⟩
    · exact absurd hzero hr
    · exact Or.inr ⟨y, s₂, hylevel, by rw [hry, ← hblock], hsame.root_eq ▸ hroot,
        hfree.trans htake, Or.inr hmalloc, hs'⟩

/-- The copy into the new block leaves the tree alone. -/
theorem Regrown.grown {x y : Node} {size r l : ℕ} {s' s₂ : Allocator}
    (hy : Regrown frames fixed h a x size r l s' y s₂) (hlt : l < levelFor size) :
    Advances fixed h a ⟨s', grant (h.live.erase (h.alloc.block x)) r size⟩
      ⟨s'.tree, y :: a.held.erase x⟩ := by
  have hblock : s₂.block = h.alloc.block := funext hy.advances.same.block_eq
  have hcopy := hy.advances.invariant.copy (h.alloc.block x).start (y := y)
    List.mem_cons_self (hy.level ▸ hlt.le)
  dsimp only at hcopy
  rw [hblock, ← hy.start] at hcopy
  rw [hy.copied]
  exact hy.advances.trans hcopy

/-- `krealloc` of a block that is too small releases its node and takes another
one or none. -/
theorem Invariant.reallocMove (hi : Invariant fixed h a) {x : Node} (hx : x ∈ a.held)
    (hlive : h.alloc.block x ∈ h.live) {size r l : ℕ} {s' : Allocator}
    (hsize : h.alloc.Serves size)
    (hl : areaLevel h.alloc (segmentOf h.alloc (h.alloc.block x).start) = some l)
    (hlt : l < levelFor size)
    (hcall : krealloc frames h.alloc (h.alloc.block x).start size = some (r, s')) :
    ∃ a', Advances fixed h a ⟨s', grant (h.live.erase (h.alloc.block x)) r size⟩ a' := by
  rcases hi.reallocMove_cases hx hlive hsize hl hlt hcall with ⟨hr, hmalloc, -⟩ | ⟨y, s₂, hy⟩
  · have hfree := hi.free hx hlive (start_mem_range h.alloc x)
    have hserves := (kfree_same h.alloc (h.alloc.block x).start).serves hsize
    rw [hr]
    rcases hfree.invariant.malloc hserves hmalloc with ⟨-, hs'⟩ | ⟨y, -, -, -, htake⟩
    · rw [hs', grant, if_pos rfl]
      exact ⟨_, hfree⟩
    · exact ⟨_, hfree.trans htake⟩
  · exact ⟨_, hy.grown hlt⟩

/-- `krealloc` of a block that is large enough returns it. -/
theorem krealloc_keep {s : Allocator} {pointer size r l : ℕ} {s' : Allocator}
    (hl : areaLevel s (segmentOf s pointer) = some l) (hle : requestLevel size ≤ l)
    (hcall : krealloc frames s pointer size = some (r, s')) : r = pointer ∧ s' = s := by
  rcases krealloc_cases hl hcall with ⟨-, hkeep⟩ | ⟨hlt, -⟩
  · exact hkeep
  · omega

theorem kmsz_eq_some {s : Allocator} {pointer z : ℕ} (hz : kmsz s pointer = some z) :
    ∃ l, areaLevel s (segmentOf s pointer) = some l ∧ z = 2 ^ l * blockSize := by
  rw [kmsz, Option.map_eq_some_iff] at hz
  obtain ⟨l, hl, rfl⟩ := hz
  exact ⟨l, hl, rfl⟩

theorem reservedSize_le_iff {size l : ℕ} :
    reservedSize size ≤ 2 ^ l * blockSize ↔ levelFor size ≤ l := by
  rw [reservedSize, Nat.mul_le_mul_right_iff (by decide), Nat.pow_le_pow_iff_right (by decide)]

/-- A client that writes to its own block leaves the tree alone. -/
theorem Invariant.write (hi : Invariant fixed h a) {x : Node} (hx : x ∈ a.held) {w : ℕ}
    (hw : w ∈ (h.alloc.block x).range) (v : ℕ) :
    Advances fixed h a ⟨{ h.alloc with mem := store h.alloc.mem w v }, h.live⟩
      ⟨{ h.alloc with mem := store h.alloc.mem w v }.tree, a.held⟩ := by
  have hend := block_end_le (hi.held_le_root hx) (hi.apart_system hx)
  have hlast : w < (h.alloc.block x).start + (h.alloc.block x).size := hw.2
  have hfits := hi.layout.fits
  refine hi.idle ⟨_, rfl⟩ fun z hz => hi.layout.tree_eq_of_mem ⟨_, rfl⟩ ?_ hz
  intro c hc₁ hc₂
  refine store_of_ne ?_
  rw [wrap_of_lt (by omega)]
  omega

/-- Every step of the clients is a run of moves of the tree. -/
theorem Invariant.step (hi : Invariant fixed h a) (hs : Step frames h h') :
    ∃ a', Advances fixed h a h' a' := by
  cases hs with
  | @malloc size r s' hsize hcall =>
      rcases hi.malloc hsize hcall with ⟨rfl, rfl⟩ | ⟨y, -, -, -, htake⟩
      · rw [grant, if_pos rfl]
        exact ⟨_, .refl hi⟩
      · exact ⟨_, htake⟩
  | @free b pointer hb hp =>
      obtain ⟨x, hx, rfl⟩ := hi.simulates.exists_node hb
      exact ⟨_, hi.free hx hb hp⟩
  | @reallocKeep b size r z s' hb hsize hz hfit hcall =>
      obtain ⟨l, hl, rfl⟩ := kmsz_eq_some hz
      rw [reservedSize_le_iff, ← hsize.level_eq] at hfit
      obtain ⟨rfl, rfl⟩ := krealloc_keep hl hfit hcall
      obtain ⟨leaked, hleaked, hperm⟩ := hi.simulates.blocks
      have hcons := List.perm_cons_erase hb
      refine ⟨a, Same.refl _, .refl, hi.layout, hi.fixed_eq, ⟨hi.simulates.mask, ?_⟩, hi.sound⟩
      exact ⟨leaked, hleaked, hperm.trans (hcons.append_right _)⟩
  | @reallocMove b size r z s' hb hsize hz hfit hcall =>
      obtain ⟨l, hl, rfl⟩ := kmsz_eq_some hz
      obtain ⟨x, hx, rfl⟩ := hi.simulates.exists_node hb
      have hlt : l < levelFor size := by
        by_contra hcon
        exact absurd (reservedSize_le_iff.mpr (Nat.le_of_not_lt hcon)) (Nat.not_le_of_lt hfit)
      exact hi.reallocMove hx hb hsize hl hlt hcall
  | @write b w v hb hw =>
      obtain ⟨x, hx, rfl⟩ := hi.simulates.exists_node hb
      exact ⟨_, hi.write hx hw v⟩

/-- Whole runs of the clients are runs of moves of the tree. -/
theorem Invariant.run (hi : Invariant fixed h a) (hs : ReflTransGen (Step frames) h h') :
    ∃ a', Advances fixed h a h' a' := by
  induction hs with
  | refl => exact ⟨a, .refl hi⟩
  | tail _ hstep ih =>
      obtain ⟨a₁, h₁⟩ := ih
      obtain ⟨a₂, h₂⟩ := h₁.invariant.step hstep
      exact ⟨a₂, h₁.trans h₂⟩

end Calls

end Neos.Kmalloc
