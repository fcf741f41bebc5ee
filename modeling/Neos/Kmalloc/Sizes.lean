import Neos.Kmalloc.MemoryMap
import Mathlib.Order.Bounds.Basic

/-!
# The sizes of blocks

The size of a block is stored nowhere.  `kmsz` climbs from the segment of a pointer
to the first non-zero mask, which is the node of the block as long as everything
strictly below a taken node is zero.
-/

namespace Neos.Kmalloc

open BitMemory BuddyTree Relation

/-! ## Prepared arenas -/

/-- The last segment `kmres` marks. -/
def lastReserved (s : Allocator) (pointer size : ℕ) : ℕ :=
  max (clampedSegment s.offset s.size pointer)
    (clampedSegment s.offset s.size (pointer + size + 2 ^ 32 - 1))

/-- The allocator after `kset` and any calls of `kmres` that mark segments of the
tree.  The arena holds five segments and begins behind the first words of the
memory. -/
inductive Prepared : Allocator → Prop
  | kset (beyond : ℕ → LevelDescriptor) (mem : Memory) {size offset : ℕ}
      (hsize : 5 * blockSize ≤ size) (hoffset : lowEnd ≤ offset)
      (hfits : offset + size < 2 ^ 32) : Prepared (kset (boot beyond mem) size offset)
  | kmres {s : Allocator} {pointer size : ℕ} (hp : Prepared s)
      (htree : lastReserved s pointer size < (s.treeLevels 0).size) :
      Prepared (kmres s pointer size)

/-- What preparing an arena establishes: the tree records a set of leaves, among
them those of the control structure. -/
structure Prepares (fixed : Set Node) (s : Allocator) : Prop where
  layout : Layout s
  offset_ge : lowEnd ≤ s.offset
  system : systemSegments s ⊆ fixed
  leaf : ∀ x ∈ fixed, x.level = 0
  le_root : ∀ x ∈ fixed, x ≤ s.root
  exact : Exact s.tree s.root fixed

theorem antichain_of_leaf {fixed : Set Node} (h : ∀ x ∈ fixed, x.level = 0) :
    Antichain fixed := by
  intro x hx y hy hne
  have hl : x.level = y.level := (h x hx).trans (h y hy).symm
  exact ⟨fun hle => hne (Node.eq_of_le_of_level le_rfl hle hl),
    fun hle => hne (Node.eq_of_le_of_level le_rfl hle hl.symm).symm⟩

theorem Prepared.prepares {s : Allocator} (hp : Prepared s) : ∃ fixed, Prepares fixed s := by
  induction hp with
  | @kset beyond mem size offset hsize hoffset hfits =>
      obtain ⟨hready, hoff, -, hexact⟩ := kset_ready beyond mem hsize (by omega) hfits.le
      exact ⟨_, hready.layout, by rwa [hoff], subset_rfl, fun x hx => hx.1,
        systemSegments_le_root _, hexact hfits⟩
  | @kmres s pointer size hp htree ih =>
      obtain ⟨fixed, ih⟩ := ih
      have hpow := ih.layout.size_eq 0 (Nat.zero_le _)
      rw [Nat.sub_zero] at hpow
      rw [hpow] at htree
      have hroot : (⟨0, lastReserved s pointer size⟩ : Node) ≤ s.root :=
        le_root_iff.mpr ⟨Nat.zero_le _, by simpa using htree⟩
      have hle : clampedSegment s.offset s.size pointer ≤ lastReserved s pointer size :=
        le_max_left _ _
      have hsame := takeSegments_same s (clampedSegment s.offset s.size pointer)
        (lastReserved s pointer size)
      have hrange := ih.layout.takeSegments_rangeTaken hle hroot
      have hexact := ih.exact.takeRange ih.le_root ih.leaf hrange
      rw [ih.layout.kmres_clamped]
      refine ⟨fixed ∪ leafRange (clampedSegment s.offset s.size pointer)
        (lastReserved s pointer size), ih.layout.same hsame, ?_, ?_, ?_, ?_, ?_⟩
      · obtain ⟨m, hm⟩ := hsame
        rw [← lastReserved, hm]
        exact ih.offset_ge
      · rw [← lastReserved, hsame.systemSegments_eq]
        exact ih.system.trans Set.subset_union_left
      · rintro x (hx | hx)
        · exact ih.leaf x hx
        · exact hx.1
      · rw [← lastReserved, hsame.root_eq]
        rintro x (hx | ⟨hx₀, -, hx⟩)
        · exact ih.le_root x hx
        · refine le_root_iff.mpr ⟨by omega, ?_⟩
          rw [hx₀, Nat.sub_zero]
          omega
      · rw [← lastReserved, hsame.root_eq]
        exact hexact

/-- A used arena whose tree records exactly the reserved segments and the held
nodes. -/
structure Tracked (fixed : Set Node) (h : Heap) (a : Holding) : Prop where
  invariant : Invariant fixed h a
  exact : Exact h.alloc.tree h.alloc.root (a.taken fixed)
  leaf : ∀ x ∈ fixed, x.level = 0
  offset_ge : lowEnd ≤ h.alloc.offset

section

variable {fixed : Set Node} {s : Allocator} {h h' : Heap} {a a' : Holding} {frames n : ℕ}
  {b : Block}

theorem Tracked.advance (ht : Tracked fixed h a) (ha : Advances fixed h a h' a') :
    Tracked fixed h' a' := by
  have hexact' := ha.exact ht.invariant (antichain_of_leaf ht.leaf) ht.exact
  refine ⟨ha.invariant, hexact', ht.leaf, ?_⟩
  obtain ⟨m, hm⟩ := ha.same
  rw [hm]
  exact ht.offset_ge

theorem Prepared.tracked (hp : Prepared s) (hrun : ReflTransGen (Step frames) ⟨s, []⟩ h) :
    ∃ fixed a, Tracked fixed h a := by
  obtain ⟨fixed, hf⟩ := hp.prepares
  have hstart := Invariant.start hf.layout hf.system hf.le_root
    (hf.exact.settled (antichain_of_leaf hf.leaf))
  have htracked : Tracked fixed ⟨s, []⟩ ⟨s.tree, []⟩ := by
    refine ⟨hstart, ?_, hf.leaf, hf.offset_ge⟩
    rw [taken_nil]
    exact hf.exact
  obtain ⟨a, ha⟩ := hstart.run hrun
  exact ⟨fixed, a, htracked.advance ha⟩

/-! ## The lowest non-zero mask -/

/-- Walking up from a leaf of a node below which everything is zero ends at the
node. -/
theorem areaLevelLoop_eq {x : Node} (hx : s.tree x ≠ 0) (hbelow : ∀ z < x, s.tree z = 0) :
    ∀ (fuel l n : ℕ), (⟨l, n⟩ : Node) ≤ x → x.level < fuel + l →
      areaLevelLoop s fuel l n = some x.level
  | 0, l, n, hle, hfuel => by
      have hl : l ≤ x.level := Node.level_mono hle
      omega
  | fuel + 1, l, n, hle, hfuel => by
      have htree : getTreeElement s l n = s.tree ⟨l, n⟩ := rfl
      rcases eq_or_lt_of_le hle with rfl | hlt
      · rw [areaLevelLoop, if_neg (htree ▸ hx)]
      · have hzero : getTreeElement s l n = 0 := htree.trans (hbelow _ hlt)
        rw [areaLevelLoop, if_pos hzero]
        exact areaLevelLoop_eq hx hbelow fuel (l + 1) (n / 2) (parent_le_of_lt hlt) (by omega)

/-- The level of a held node is found from any address of its block. -/
theorem Tracked.areaLevel_eq (ht : Tracked fixed h a) {x : Node} (hx : x ∈ a.held) {q : ℕ}
    (hq : q ∈ (h.alloc.block x).range) :
    areaLevel h.alloc (segmentOf h.alloc q) = some x.level := by
  have hmem : x ∈ a.taken fixed := Or.inr hx
  have hlevel := ht.invariant.layout.level_le (ht.invariant.held_le_root hx)
  have hmask : h.alloc.tree x ≠ 0 := by
    rw [ht.exact.full x hmem]
    exact ones_ne_zero _
  have hleaf := ht.invariant.segmentOf_le hx hq
  have hfuel : x.level < 32 + 0 := by omega
  rw [areaLevel]
  exact areaLevelLoop_eq hmask (fun z hz => ht.exact.below x hmem z hz) 32 0 _ hleaf hfuel

/-- `kmsz` of any address of a live block is the size of the block. -/
theorem Tracked.kmsz_eq (ht : Tracked fixed h a) (hb : b ∈ h.live) {q : ℕ} (hq : q ∈ b.range) :
    kmsz h.alloc q = some b.size := by
  obtain ⟨x, hx, rfl⟩ := ht.invariant.simulates.exists_node hb
  rw [kmsz, ht.areaLevel_eq hx hq]
  rfl

/-! ## The requests behind the blocks -/

/-- In a run that ends in the heap, the live block was obtained for a request of `n`
bytes.  It keeps its request under every step that leaves it live, also under a
`krealloc` that does not need to grow it. -/
inductive Served (frames : ℕ) (s : Allocator) : Heap → Block → ℕ → Prop
  | malloc {h : Heap} {n r : ℕ} {s' : Allocator}
      (hrun : ReflTransGen (Step frames) ⟨s, []⟩ h) (hsize : h.alloc.Serves n)
      (hcall : kmalloc frames h.alloc n = some (r, s')) (hr : r ≠ 0) :
      Served frames s ⟨s', grant h.live r n⟩ ⟨r, reservedSize n⟩ n
  | realloc {h : Heap} {b : Block} {n r z : ℕ} {s' : Allocator}
      (hrun : ReflTransGen (Step frames) ⟨s, []⟩ h) (hb : b ∈ h.live) (hsize : h.alloc.Serves n)
      (hz : kmsz h.alloc b.start = some z) (hfit : z < reservedSize n)
      (hcall : krealloc frames h.alloc b.start n = some (r, s')) (hr : r ≠ 0) :
      Served frames s ⟨s', grant (h.live.erase b) r n⟩ ⟨r, reservedSize n⟩ n
  | stay {h h' : Heap} {b : Block} {n : ℕ} (hserved : Served frames s h b n)
      (hstep : Step frames h h') (hb : b ∈ h'.live) : Served frames s h' b n

theorem grant_of_ne {live : List Block} {r : ℕ} (hr : r ≠ 0) (size : ℕ) :
    grant live r size = ⟨r, reservedSize size⟩ :: live := by
  rw [grant, if_neg hr]

/-- What was granted is the new block or an old one. -/
theorem mem_grant {live : List Block} {r size : ℕ} (hb : b ∈ grant live r size) :
    (r ≠ 0 ∧ b = ⟨r, reservedSize size⟩) ∨ b ∈ live := by
  unfold grant at hb
  split at hb
  · exact Or.inr hb
  · next hr =>
      rcases List.mem_cons.mp hb with heq | hold
      · exact Or.inl ⟨hr, heq⟩
      · exact Or.inr hold

/-- A block served by a run is live, and it has the size reserved for its request. -/
theorem Served.spec (hs : Served frames s h b n) :
    ReflTransGen (Step frames) ⟨s, []⟩ h ∧ b ∈ h.live ∧ b.size = reservedSize n := by
  induction hs with
  | @malloc h n r s' hrun hsize hcall hr =>
      refine ⟨hrun.tail (.malloc hsize hcall), ?_, rfl⟩
      rw [grant_of_ne hr]
      exact List.mem_cons_self
  | @realloc h b n r z s' hrun hb hsize hz hfit hcall hr =>
      refine ⟨hrun.tail (.reallocMove hb hsize hz hfit hcall), ?_, rfl⟩
      rw [grant_of_ne hr]
      exact List.mem_cons_self
  | stay _ hstep hb ih => exact ⟨ih.1.tail hstep, hb, ih.2.2⟩

/-- Every live block was served. -/
theorem exists_served (hrun : ReflTransGen (Step frames) ⟨s, []⟩ h) :
    ∀ b ∈ h.live, ∃ n, Served frames s h b n := by
  induction hrun with
  | refl => exact fun b hb => absurd hb List.not_mem_nil
  | @tail h h' hrun hstep ih =>
      intro b hb
      have hold : b ∈ h.live → ∃ n, Served frames s h' b n := by
        intro hlive
        obtain ⟨n, hn⟩ := ih b hlive
        exact ⟨n, hn.stay hstep hb⟩
      cases hstep with
      | @malloc size r s' hsize hcall =>
          rcases mem_grant hb with ⟨hr, rfl⟩ | hlive
          · exact ⟨size, .malloc hrun hsize hcall hr⟩
          · exact hold hlive
      | @free c pointer hc hp => exact hold (List.mem_of_mem_erase hb)
      | @reallocKeep c size r z s' hc hsize hz hfit hcall =>
          obtain ⟨l, hl, rfl⟩ := kmsz_eq_some hz
          rw [reservedSize_le_iff, ← hsize.level_eq] at hfit
          obtain ⟨rfl, -⟩ := krealloc_keep hl hfit hcall
          rcases List.mem_cons.mp hb with rfl | hlive
          · exact hold hc
          · exact hold (List.mem_of_mem_erase hlive)
      | @reallocMove c size r z s' hc hsize hz hfit hcall =>
          rcases mem_grant hb with ⟨hr, rfl⟩ | hlive
          · exact ⟨size, .realloc hrun hc hsize hz hfit hcall hr⟩
          · exact hold (List.mem_of_mem_erase hlive)
      | @write c w v hc hw => exact hold hb

/-- The size reserved for a request is the least power of two of segments that holds
it. -/
theorem isLeast_levelFor (n : ℕ) : IsLeast {k | n ≤ blockSize * 2 ^ k} (levelFor n) := by
  constructor
  · rw [Set.mem_ofPred_eq, Nat.mul_comm, ← levelFor_le_iff]
  · intro k hk
    rw [Set.mem_ofPred_eq, Nat.mul_comm, ← levelFor_le_iff] at hk
    exact hk

/-- In every reachable state each live block was obtained for some request, and for
a request of `n` bytes `kmsz` of every address of the block returns the least power of
two of segments that holds `n` bytes. -/
theorem kmsz_of_served (hp : Prepared s) (hrun : ReflTransGen (Step frames) ⟨s, []⟩ h) :
    (∀ b ∈ h.live, ∃ n, Served frames s h b n) ∧
      ∀ b n q, Served frames s h b n → q ∈ b.range →
        ∃ k, IsLeast {k | n ≤ blockSize * 2 ^ k} k ∧ b.size = blockSize * 2 ^ k ∧
          kmsz h.alloc q = some (blockSize * 2 ^ k) := by
  refine ⟨exists_served hrun, ?_⟩
  intro b n q hs hq
  obtain ⟨-, hb, hsize⟩ := hs.spec
  obtain ⟨fixed, a, ht⟩ := hp.tracked hrun
  rw [reservedSize, Nat.mul_comm] at hsize
  refine ⟨levelFor n, isLeast_levelFor n, hsize, ?_⟩
  rw [← hsize]
  exact ht.kmsz_eq hb hq

end

theorem smallArena_prepared : Prepared smallArena :=
  .kset _ _ (by decide) (by decide) (by decide)

/-- The block of a request of 1000 bytes is one segment. -/
theorem kmsz_of_served_smallArena :
    ∃ s', kmalloc 64 smallArena 1000 = some (4096, s') ∧ kmsz s' 5000 = some 1024 := by
  obtain ⟨s', hcall⟩ := kmalloc_smallArena
  have hrun : ReflTransGen (Step 64) ⟨smallArena, []⟩ ⟨s', grant [] 4096 1000⟩ :=
    .single (.malloc smallArena_serves hcall)
  have hserved : Served 64 smallArena ⟨s', grant [] 4096 1000⟩ ⟨4096, reservedSize 1000⟩ 1000 :=
    .malloc .refl smallArena_serves hcall (by decide)
  have hsize : reservedSize 1000 = 1024 := by
    rw [reservedSize, levelFor_thousand]
    rfl
  obtain ⟨k, -, hk, hkmsz⟩ := (kmsz_of_served smallArena_prepared hrun).2 _ _ 5000 hserved
    (by rw [hsize]; exact ⟨by decide, by decide⟩)
  rw [← hk] at hkmsz
  rw [hsize] at hkmsz
  exact ⟨s', hcall, hkmsz⟩

end Neos.Kmalloc
