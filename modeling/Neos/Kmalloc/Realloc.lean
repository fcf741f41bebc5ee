import Neos.Kmalloc.Sizes

/-!
# Growing a block

`krealloc` frees the old block before it copies it, and the new block may overlap the
old one.  The bytes survive, because releasing and taking nodes writes only the tables
behind the blocks, and `memmove` copies overlapping ranges.
-/

namespace Neos.Kmalloc

open BitMemory BuddyTree Relation

section

variable {fixed : Set Node} {s : Allocator} {h : Heap} {a : Holding} {frames n r l : ℕ}
  {s' s₂ : Allocator} {b : Block} {x y : Node}

/-! ## Termination -/

theorem Layout.kmalloc_returns (hl : Layout s) (hdeep : s.maxTreeLevel < frames)
    (hsize : s.Serves n) : ∃ r s', kmalloc frames s n = some (r, s') := by
  rw [kmalloc_eq hl.le_twentyTwo frames (hsize.level_le hl)]
  split
  · exact ⟨_, _, rfl⟩
  · rw [if_pos (by omega)]
    exact ⟨_, _, rfl⟩

theorem krealloc_returns {pointer : ℕ} (hl : areaLevel s (segmentOf s pointer) = some l)
    (hm : ∃ r s', kmalloc frames (kfree s pointer) n = some (r, s')) :
    ∃ r s', krealloc frames s pointer n = some (r, s') := by
  obtain ⟨r, s', hcall⟩ := hm
  unfold krealloc
  dsimp only
  rw [hl, Option.bind_eq_bind, Option.bind_some]
  split
  · exact ⟨_, _, rfl⟩
  · split
    · exact ⟨_, _, rfl⟩
    · rw [hcall, Option.bind_eq_bind, Option.bind_some]
      dsimp only
      split
      · exact ⟨_, _, rfl⟩
      · exact ⟨_, _, rfl⟩

/-! ## The memory -/

/-- A request writes nothing but the tables and the words at address `0`. -/
theorem Layout.kmalloc_confined (hl : Layout s) (hsize : s.Serves n)
    (hcall : kmalloc frames s n = some (r, s')) : Confined s s' := by
  have hk := hsize.level_le hl
  rw [kmalloc_eq hl.le_twentyTwo frames hk] at hcall
  split at hcall
  · obtain ⟨-, rfl⟩ := Prod.mk.inj (Option.some_inj.mp hcall)
    exact Confined.refl s
  · split at hcall
    · obtain ⟨-, rfl⟩ := Prod.mk.inj (Option.some_inj.mp hcall)
      exact hl.reserve_confined (choice_le_root hk)
    · exact absurd hcall.symm (Option.some_ne_none _)

/-- The addresses of a held node lie behind the first words of the memory and in front
of the tables. -/
theorem Tracked.block_inside (ht : Tracked fixed h a) (hx : x ∈ a.held) {q : ℕ}
    (hq : q ∈ (h.alloc.block x).range) : lowEnd ≤ q ∧ q < h.alloc.offset + h.alloc.end_ := by
  have hend := block_end_le (ht.invariant.held_le_root hx) (ht.invariant.apart_system hx)
  have hge := ht.offset_ge
  have hstart : h.alloc.offset ≤ (h.alloc.block x).start := Nat.le_add_right _ _
  exact ⟨hge.trans (hstart.trans hq.1), hq.2.trans_le hend⟩

theorem Tracked.kfree_confined (ht : Tracked fixed h a) (hx : x ∈ a.held) :
    Confined h.alloc (kfree h.alloc (h.alloc.block x).start) :=
  ht.invariant.layout.kfree_confined
    ((ht.invariant.segmentOf_le hx (start_mem_range _ _)).trans (ht.invariant.held_le_root hx))

/-- Up to the copying, the memory in front of the tables stays as it is. -/
theorem Regrown.confined (ht : Tracked fixed h a) (hx : x ∈ a.held) (hsize : h.alloc.Serves n)
    (hy : Regrown frames fixed h a x n r l s' y s₂) : Confined h.alloc s₂ := by
  have hfree := ht.kfree_confined hx
  have hl := ht.invariant.layout.same hfree.same
  rcases hy.taken with hreserve | hmalloc
  · rw [hreserve]
    refine hfree.trans (hl.reserve_confined ?_)
    rw [hfree.same.root_eq]
    exact hy.le_root
  · exact hfree.trans (hl.kmalloc_confined (hfree.same.serves hsize) hmalloc)

/-- The copy of the old block has less than `2 ^ 31` bytes, so its size is not negative
as a `long`. -/
theorem Regrown.toInt_size (hy : Regrown frames fixed h a x n r l s' y s₂)
    (hlt : l < levelFor n) (hend : (h.alloc.block y).start + (h.alloc.block y).size < 2 ^ 32) :
    toInt (2 ^ l * blockSize) = (2 ^ l * blockSize : ℕ) := by
  have hdouble : 2 ^ (l + 1) ≤ 2 ^ y.level :=
    Nat.pow_le_pow_right (by decide) (hy.level ▸ hlt)
  have hblock : (h.alloc.block y).size = 2 ^ y.level * blockSize := rfl
  unfold blockSize at *
  exact toInt_of_lt (by omega)

/-- The new block holds the bytes of the old one, and the bytes outside the new block
are those of before. -/
theorem Regrown.memory (ht : Tracked fixed h a) (hx : x ∈ a.held)
    (hsize : h.alloc.Serves n) (hlt : x.level < levelFor n)
    (hy : Regrown frames fixed h a x n r x.level s' y s₂) :
    (∀ i, i < (h.alloc.block x).size → s'.mem (r + i) = h.alloc.mem ((h.alloc.block x).start + i)) ∧
      ∀ q, lowEnd ≤ q → q < h.alloc.offset + h.alloc.end_ → q ∉ (h.alloc.block y).range →
        s'.mem q = h.alloc.mem q := by
  have hconf := hy.confined ht hx hsize
  have hfits := ht.invariant.layout.fits
  have hend := ht.invariant.layout.end_eq
  have hpos := Nat.two_pow_pos (h.alloc.maxTreeLevel - 1)
  have hyend : (h.alloc.block y).start + (h.alloc.block y).size ≤
      h.alloc.offset + h.alloc.end_ := by
    refine block_end_le hy.le_root fun z hz => ?_
    have hsys := hy.advances.invariant.apart_system (List.mem_cons_self (a := y))
    refine hsys z ?_
    dsimp only
    rw [hy.advances.same.systemSegments_eq]
    exact hz
  have hxend := block_end_le (ht.invariant.held_le_root hx) (ht.invariant.apart_system hx)
  have hbytes := hy.toInt_size hlt (by omega)
  have hxsize : (h.alloc.block x).size = 2 ^ x.level * blockSize := rfl
  have hle : 2 ^ x.level * blockSize ≤ (h.alloc.block y).size :=
    Nat.mul_le_mul_right _ (Nat.pow_le_pow_right (by decide) (hy.level ▸ hlt.le))
  have hmem : s'.mem = memmove s₂.mem r (h.alloc.block x).start (2 ^ x.level * blockSize : ℕ) := by
    rw [hy.copied, reallocReturn, hbytes]
  have hr := hy.start
  constructor
  · intro i hi
    rw [hmem, memmove_get _ (by omega) (by omega) (hxsize ▸ hi)]
    have hin : (h.alloc.block x).start + i ∈ (h.alloc.block x).range := ⟨by omega, by omega⟩
    obtain ⟨hlow, hhigh⟩ := ht.block_inside hx hin
    exact hconf.mem_eq _ hlow hhigh
  · intro q hlow hhigh hout
    rw [hmem, memmove_frame]
    · exact hconf.mem_eq q hlow hhigh
    · intro j hj heq
      rw [wrap_of_lt (by omega)] at heq
      exact hout ⟨by omega, by omega⟩

/-! ## The contract -/

/-- What a call of `krealloc` on the live block `b` for `n` bytes returns and leaves
behind: the block is freed and the call refused, or the client owns a block of at least
`n` bytes that begins with the bytes of the old one.  The bytes of the other live blocks
stay as they are, and nothing happens when the block suffices. -/
structure Reallocated (frames : ℕ) (h : Heap) (b : Block) (n r : ℕ) (s' : Allocator) : Prop where
  outcome :
    (r = 0 ∧ s' = kfree h.alloc b.start ∧ Step frames h ⟨s', h.live.erase b⟩ ∧
      Separated s' (h.live.erase b)) ∨
    (r ≠ 0 ∧ ∃ size, n ≤ size ∧ Step frames h ⟨s', ⟨r, size⟩ :: h.live.erase b⟩ ∧
      Separated s' (⟨r, size⟩ :: h.live.erase b) ∧
      ∀ i, i < b.size → s'.mem (r + i) = h.alloc.mem (b.start + i))
  others : ∀ c ∈ h.live.erase b, ∀ q ∈ c.range, s'.mem q = h.alloc.mem q
  stays : n ≤ b.size → r = b.start ∧ s' = h.alloc

theorem le_reservedSize (n : ℕ) : n ≤ reservedSize n := by
  rw [reservedSize, ← levelFor_le_iff]

theorem Tracked.start_ne_zero (ht : Tracked fixed h a) (x : Node) :
    (h.alloc.block x).start ≠ 0 := by
  have hge := ht.offset_ge
  unfold lowEnd at hge
  rw [Allocator.block]
  dsimp only
  omega

/-- A block that suffices is returned. -/
theorem Tracked.krealloc_stays (ht : Tracked fixed h a) (hb : b ∈ h.live)
    (hsize : h.alloc.Serves n) (hfit : reservedSize n ≤ b.size)
    (hcall : krealloc frames h.alloc b.start n = some (r, s')) :
    Reallocated frames h b n r s' := by
  obtain ⟨x, hx, rfl⟩ := ht.invariant.simulates.exists_node hb
  have hstart := start_mem_range h.alloc x
  have hz := ht.kmsz_eq hb hstart
  have hl := ht.areaLevel_eq hx hstart
  have hstep := Step.reallocKeep hb hsize hz hfit hcall
  have hle : requestLevel n ≤ x.level := by
    rw [hsize.level_eq]
    exact reservedSize_le_iff.mp hfit
  obtain ⟨rfl, rfl⟩ := krealloc_keep hl hle hcall
  obtain ⟨a', ha'⟩ := ht.invariant.step hstep
  exact
    { outcome := Or.inr ⟨ht.start_ne_zero x, _, (le_reservedSize n).trans hfit, hstep,
        ha'.invariant.separated, fun _ _ => rfl⟩
      others := fun _ _ _ _ => rfl
      stays := fun _ => ⟨rfl, rfl⟩ }

/-- A block that does not suffice is moved, or freed. -/
theorem Tracked.krealloc_moves (ht : Tracked fixed h a) (hb : b ∈ h.live)
    (hsize : h.alloc.Serves n) (hfit : b.size < reservedSize n)
    (hcall : krealloc frames h.alloc b.start n = some (r, s')) :
    Reallocated frames h b n r s' := by
  obtain ⟨x, hx, rfl⟩ := ht.invariant.simulates.exists_node hb
  have hstart := start_mem_range h.alloc x
  have hz := ht.kmsz_eq hb hstart
  have hl := ht.areaLevel_eq hx hstart
  have hstep := Step.reallocMove hb hsize hz hfit hcall
  obtain ⟨a', ha'⟩ := ht.invariant.step hstep
  have hlt : x.level < levelFor n := by
    by_contra hge
    exact absurd (reservedSize_le_iff.mpr (Nat.le_of_not_lt hge)) (Nat.not_le_of_lt hfit)
  have hstays : ¬ n ≤ (h.alloc.block x).size := by
    rw [Allocator.block]
    dsimp only
    rw [← levelFor_le_iff]
    exact Nat.not_le_of_lt hlt
  have hinside : ∀ c ∈ h.live.erase (h.alloc.block x), ∀ q ∈ c.range,
      lowEnd ≤ q ∧ q < h.alloc.offset + h.alloc.end_ := by
    intro c hc q hq
    obtain ⟨z, hz, rfl⟩ := ht.invariant.simulates.exists_node (List.mem_of_mem_erase hc)
    exact ht.block_inside hz hq
  have hconf := ht.kfree_confined hx
  rcases ht.invariant.reallocMove_cases hx hb hsize hl hlt hcall with ⟨rfl, hmalloc, -⟩ | ⟨y, s₂, hy⟩
  · have hfreed := ht.advance (ht.invariant.free hx hb hstart)
    have hs' : s' = kfree h.alloc (h.alloc.block x).start := by
      rcases hfreed.invariant.malloc (hconf.same.serves hsize) hmalloc with
        ⟨-, hs'⟩ | ⟨y, -, hzero, -⟩
      · exact hs'
      · exact absurd hzero.symm (hfreed.start_ne_zero y)
    rw [grant, if_pos rfl] at hstep ha'
    refine ⟨Or.inl ⟨rfl, hs', hstep, ha'.invariant.separated⟩, ?_, fun hn => absurd hn hstays⟩
    intro c hc q hq
    rw [hs']
    exact hconf.mem_eq q (hinside c hc q hq).1 (hinside c hc q hq).2
  · have hr : r ≠ 0 := by
      rw [hy.start]
      exact ht.start_ne_zero y
    obtain ⟨hbytes, hkept⟩ := hy.memory ht hx hsize hlt
    rw [grant_of_ne hr] at hstep ha'
    refine ⟨Or.inr ⟨hr, _, le_reservedSize n, hstep, ha'.invariant.separated, hbytes⟩, ?_,
      fun hn => absurd hn hstays⟩
    intro c hc q hq
    refine hkept q (hinside c hc q hq).1 (hinside c hc q hq).2 ?_
    have hdisj := (List.pairwise_cons.mp ha'.invariant.separated.disjoint).1 c hc
    have hnew : (⟨r, reservedSize n⟩ : Block) = h.alloc.block y := by
      rw [hy.start, reservedSize, ← hy.level]
      rfl
    rw [hnew] at hdisj
    exact fun hqy => Set.disjoint_left.mp hdisj hqy hq

/-- In every reachable state `krealloc` of a live block returns for every request that
the tree can hold, with the outcome described by `Reallocated`. -/
theorem krealloc_reallocates (hp : Prepared s) (hrun : ReflTransGen (Step frames) ⟨s, []⟩ h)
    (hdeep : h.alloc.maxTreeLevel < frames) (hb : b ∈ h.live) (hsize : h.alloc.Serves n) :
    ∃ r s', krealloc frames h.alloc b.start n = some (r, s') ∧ Reallocated frames h b n r s' := by
  obtain ⟨fixed, a, ht⟩ := hp.tracked hrun
  obtain ⟨x, hx, hxb⟩ := ht.invariant.simulates.exists_node hb
  have hl := ht.areaLevel_eq hx (start_mem_range h.alloc x)
  have hconf := ht.kfree_confined hx
  have hdeep' : (kfree h.alloc (h.alloc.block x).start).maxTreeLevel < frames := by
    obtain ⟨m, hm⟩ := hconf.same
    rwa [hm]
  have hmalloc := (ht.invariant.layout.same hconf.same).kmalloc_returns hdeep'
    (hconf.same.serves hsize)
  rw [hxb] at hl hmalloc
  obtain ⟨r, s', hcall⟩ := krealloc_returns hl hmalloc
  refine ⟨r, s', hcall, ?_⟩
  rcases Nat.lt_or_ge b.size (reservedSize n) with hfit | hfit
  · exact ht.krealloc_moves hb hsize hfit hcall
  · exact ht.krealloc_stays hb hsize hfit hcall

end

/-- A block of one segment grows to two. -/
theorem krealloc_reallocates_smallArena :
    ∃ s₁ r s₂, kmalloc 64 smallArena 1000 = some (4096, s₁) ∧
      krealloc 64 s₁ 4096 2000 = some (r, s₂) ∧
      Reallocated 64 ⟨s₁, [⟨4096, 1024⟩]⟩ ⟨4096, 1024⟩ 2000 r s₂ := by
  have hfields : (kmalloc 64 smallArena 1000).map
      (fun p => (p.1, p.2.maxTreeLevel, (p.2.treeLevels 0).size)) = some (4096, 3, 8) := by
    decide +kernel
  obtain ⟨⟨r, s₁⟩, hcall, hproj⟩ := Option.map_eq_some_iff.mp hfields
  simp only [Prod.mk.injEq] at hproj
  obtain ⟨rfl, hmax, hleaves⟩ := hproj
  have hrun : ReflTransGen (Step 64) ⟨smallArena, []⟩ ⟨s₁, grant [] 4096 1000⟩ :=
    .single (.malloc smallArena_serves hcall)
  have hlive : grant [] 4096 1000 = [⟨4096, 1024⟩] := by
    rw [grant_of_ne (by decide), reservedSize, levelFor_thousand]
    rfl
  rw [hlive] at hrun
  obtain ⟨r, s₂, hrealloc, hspec⟩ := krealloc_reallocates (n := 2000) smallArena_prepared hrun
    (by dsimp only; omega) List.mem_cons_self
    ⟨by decide, by decide, by dsimp only; rw [hleaves]; decide⟩
  exact ⟨s₁, r, s₂, hcall, hrealloc, hspec⟩

end Neos.Kmalloc
