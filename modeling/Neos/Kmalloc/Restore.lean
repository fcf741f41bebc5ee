import Neos.Kmalloc.FreeRuns

/-!
# Freeing restores the tree

The masks of the tree are determined by the segments that are never handed out
and the live blocks.  Freeing what was allocated therefore restores every mask,
whatever address inside a block is passed to `kfree` and in whatever order the
blocks are freed.
-/

namespace Neos.Kmalloc

open BitMemory BuddyTree Relation

/-- The masks of all nodes of the tree agree. -/
def SameTree (s s' : Allocator) : Prop := ∀ z ≤ s.root, s'.tree z = s.tree z

/-- `kfree` of one pointer after the other. -/
def freeAll (s : Allocator) (pointers : List ℕ) : Allocator := pointers.foldl kfree s

section

variable {s : Allocator} {reserved : List Block} {h h' : Heap} {a a' : Holding}
  {frames : ℕ}

/-- Calls keep the tree a record of the live blocks. -/
theorem Recorded.advance (hr : Recorded h reserved a)
    (ha : Advances (h.alloc.fixed reserved) h a h' a') : Recorded h' reserved a' := by
  have hexact := ha.exact hr.invariant (fixed_antichain h.alloc reserved) hr.exact
  have hinv := ha.invariant
  rw [← ha.same.fixed_eq] at hexact hinv
  have hoffset : h'.alloc.offset = h.alloc.offset := by
    obtain ⟨m, hm⟩ := ha.same
    rw [hm]
  exact ⟨hinv, hexact, hoffset ▸ hr.offset_ne, hoffset ▸ hr.ranges⟩

/-- Two records of the same taken nodes are the same tree. -/
theorem Recorded.sameTree (hr : Recorded h reserved a) (hr' : Recorded h' reserved a')
    (hsame : Same h.alloc h'.alloc)
    (htaken : a'.taken (h.alloc.fixed reserved) = a.taken (h.alloc.fixed reserved)) :
    SameTree h.alloc h'.alloc := by
  have hexact := hr'.exact
  rw [hsame.fixed_eq, hsame.root_eq, htaken] at hexact
  intro z hz
  exact hr.exact.unique hexact hz

/-- Without live blocks nothing is held. -/
theorem Recorded.held_eq_nil (hr : Recorded h reserved a) (hlive : h.live = []) :
    a.held = [] := by
  rw [List.eq_nil_iff_forall_not_mem]
  intro x hx
  have hmem := hr.invariant.block_mem_live hr.offset_ne hx
  rw [hlive] at hmem
  cases hmem

/-- The blocks are freed one by one, each by a pointer into it. -/
theorem freeAll_run :
    ∀ {bs : List Block} {pointers : List ℕ} {h : Heap},
      List.Forall₂ (fun b p => p ∈ b.range) bs pointers → bs.Perm h.live →
        ∃ h', ReflTransGen (Step frames) h h' ∧ h'.live = [] ∧
          h'.alloc = freeAll h.alloc pointers
  | [], _, h, .nil, hperm => ⟨h, .refl, hperm.symm.eq_nil, rfl⟩
  | b :: bs, _, h, .cons (b := p) hp hps, hperm => by
      have hb : b ∈ h.live := hperm.mem_iff.mp List.mem_cons_self
      have hrest : bs.Perm (h.live.erase b) := by
        have herase := hperm.erase b
        rwa [List.erase_cons_head] at herase
      obtain ⟨h', hrun, hlive, halloc⟩ :=
        freeAll_run (h := ⟨kfree h.alloc p, h.live.erase b⟩) hps hrest
      exact ⟨h', .head (.free hb hp) hrun, hlive, halloc⟩

end

end Neos.Kmalloc
