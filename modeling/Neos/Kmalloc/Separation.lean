import Neos.Kmalloc.Run

/-!
# Separation of live blocks

Over whole runs of the clients of a fresh arena the live blocks share no
memory, neither with each other nor with the control structure of the
allocator.
-/

namespace Neos.Kmalloc

open BitMemory BuddyTree Relation

/-- The live blocks are aligned runs of segments inside the arena, apart from
each other and from the control structure. -/
structure Separated (s : Allocator) (live : List Block) : Prop where
  disjoint : live.Pairwise fun b c => Disjoint b.range c.range
  aligned : ∀ b ∈ live, s.offset ≤ b.start ∧ b.size ∣ b.start - s.offset ∧
    ∃ k, b.size = 2 ^ k * blockSize
  inside : ∀ b ∈ live, b.range ⊆ Set.Ico s.offset (s.offset + s.size)
  control : ∀ b ∈ live, Disjoint b.range (Set.Ico (s.offset + s.end_) (s.offset + s.size))

section

variable {fixed : Set Node} {h : Heap} {a : Holding}

theorem taken_nil (t : Node → ℕ) : Holding.taken ⟨t, []⟩ fixed = fixed := by
  simp [Holding.taken]

/-- An arena without clients. -/
theorem Invariant.start {s : Allocator} (hl : Layout s) (hsub : systemSegments s ⊆ fixed)
    (hroot : ∀ x ∈ fixed, x ≤ s.root) (hset : Settled s.tree s.root fixed) :
    Invariant fixed ⟨s, []⟩ ⟨s.tree, []⟩ where
  layout := hl
  fixed_eq := hsub
  simulates := ⟨rfl, [], by simp, by simp⟩
  sound :=
    { le_root := by rwa [taken_nil]
      held_apart := List.Pairwise.nil
      fixed_apart := by simp
      settled := by rwa [taken_nil] }

theorem Invariant.live_disjoint (hi : Invariant fixed h a) :
    h.live.Pairwise fun b c => Disjoint b.range c.range := by
  obtain ⟨leaked, -, hperm⟩ := hi.simulates.blocks
  have hmap : (a.held.map h.alloc.block).Pairwise fun b c => Disjoint b.range c.range :=
    List.pairwise_map.mpr (hi.sound.held_apart.imp blocks_disjoint)
  have hall := (hperm.pairwise_iff fun hd => Disjoint.symm hd).mp hmap
  exact (List.pairwise_append.mp hall).1

/-- The blocks of an arena that satisfies the invariant are separated. -/
theorem Invariant.separated (hi : Invariant fixed h a) : Separated h.alloc h.live where
  disjoint := hi.live_disjoint
  aligned b hb := by
    obtain ⟨x, -, rfl⟩ := hi.simulates.exists_node hb
    refine ⟨Nat.le_add_right _ _, ?_, x.level, rfl⟩
    have hstart : (h.alloc.block x).start - h.alloc.offset =
        x.index * (2 ^ x.level * blockSize) := by
      simp only [Allocator.block]
      rw [Nat.add_sub_cancel_left, Nat.mul_assoc]
    rw [hstart]
    exact Nat.dvd_mul_left _ _
  inside b hb := by
    obtain ⟨x, hx, rfl⟩ := hi.simulates.exists_node hb
    have hend := block_end_le (hi.held_le_root hx) (hi.apart_system hx)
    have hsize := hi.layout.end_eq
    have hpos := Nat.two_pow_pos (h.alloc.maxTreeLevel - 1)
    rintro p ⟨hp₁, hp₂⟩
    have hstart : h.alloc.offset ≤ (h.alloc.block x).start := Nat.le_add_right _ _
    exact ⟨hstart.trans hp₁, by omega⟩
  control b hb := by
    obtain ⟨x, hx, rfl⟩ := hi.simulates.exists_node hb
    have hend := block_end_le (hi.held_le_root hx) (hi.apart_system hx)
    rw [Set.disjoint_left]
    rintro p ⟨-, hp₁⟩ ⟨hp₂, -⟩
    omega

end

/-- After any run of calls on a fresh arena of at least 8 KiB the live blocks
are separated. -/
theorem separated_of_run {frames size offset : ℕ} {beyond : ℕ → LevelDescriptor}
    {mem : Memory} {h : Heap} (hsize : 8192 ≤ size) (hlt : size < 2 ^ 32)
    (hfits : offset + size ≤ 2 ^ 32)
    (hrun : ReflTransGen (Step frames) ⟨kset (boot beyond mem) size offset, []⟩ h) :
    h.alloc.offset = offset ∧ h.alloc.size = size ∧ Separated h.alloc h.live := by
  obtain ⟨hready, hoffset, hsize', -⟩ := kset_ready beyond mem (by omega) hlt hfits
  have hstart := Invariant.start hready.layout subset_rfl (systemSegments_le_root _)
    hready.settled
  obtain ⟨a, ha⟩ := hstart.run hrun
  obtain ⟨m, hm⟩ := ha.same
  refine ⟨?_, ?_, ha.invariant.separated⟩
  · rw [hm]
    exact hoffset
  · rw [hm]
    exact hsize'

/-- An arena of 8 KiB at address `4096` over cleared memory. -/
def smallArena : Allocator := kset (boot (fun _ => ⟨0, 0⟩) fun _ => 0) 8192 4096

theorem kmalloc_smallArena : ∃ s', kmalloc 64 smallArena 1000 = some (4096, s') := by
  have h : (kmalloc 64 smallArena 1000).map Prod.fst = some 4096 := by decide +kernel
  obtain ⟨⟨r, s'⟩, hcall, rfl⟩ := Option.map_eq_some_iff.mp h
  exact ⟨s', hcall⟩

theorem smallArena_serves : smallArena.Serves 1000 :=
  ⟨by decide, by decide, by decide +kernel⟩

theorem levelFor_thousand : levelFor 1000 = 0 :=
  Nat.le_zero.mp (levelFor_le_iff.mpr (by decide))

/-- One request served by the small arena. -/
theorem separated_of_run_smallArena :
    ∃ h : Heap, ReflTransGen (Step 64) ⟨smallArena, []⟩ h ∧ h.live = [⟨4096, 1024⟩] ∧
      h.alloc.offset = 4096 ∧ h.alloc.size = 8192 ∧ Separated h.alloc h.live := by
  obtain ⟨s', hcall⟩ := kmalloc_smallArena
  have hrun : ReflTransGen (Step 64) ⟨smallArena, []⟩ ⟨s', grant [] 4096 1000⟩ :=
    .single (.malloc smallArena_serves hcall)
  refine ⟨_, hrun, ?_, separated_of_run (by decide) (by decide) (by decide) hrun⟩
  rw [grant, if_neg (by decide), reservedSize, levelFor_thousand]
  rfl

end Neos.Kmalloc
