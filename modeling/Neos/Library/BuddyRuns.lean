import Neos.Library.BuddyTree
import Mathlib.Data.List.Pairwise
import Mathlib.Logic.Relation

/-!
# Runs over a buddy tree

A tree whose nodes are handed out to clients.  A client takes a node that is
apart from everything taken, or gives one back by clearing any leaf of it.  Some
nodes are taken for good.
-/

namespace Neos.BuddyTree

/-- A tree and the nodes its clients hold. -/
structure Holding where
  mask : Node → ℕ
  held : List Node

/-- The nodes taken for good and the nodes held. -/
def Holding.taken (h : Holding) (fixed : Set Node) : Set Node := fixed ∪ {x | x ∈ h.held}

/-- One step of the clients. -/
inductive Move (root : Node) (fixed : Set Node) : Holding → Holding → Prop
  | idle {t t' : Node → ℕ} {held : List Node} (hsame : ∀ z ≤ root, t' z = t z) :
      Move root fixed ⟨t, held⟩ ⟨t', held⟩
  | take {t t' : Node → ℕ} {held : List Node} {y : Node} (hroot : y ≤ root)
      (hapart : ∀ x ∈ Holding.taken ⟨t, held⟩ fixed, Node.Apart x y)
      (hupdate : Updated t t' root y (ones y.level)) :
      Move root fixed ⟨t, held⟩ ⟨t', y :: held⟩
  | release {t t' : Node → ℕ} {held : List Node} {x : Node} {q : ℕ} (hx : x ∈ held)
      (hq : (⟨0, q⟩ : Node) ≤ x) (hupdate : Updated t t' root ⟨0, q⟩ 0) :
      Move root fixed ⟨t, held⟩ ⟨t', held.erase x⟩

/-- The taken nodes are apart from each other and their masks are settled. -/
structure Sound (root : Node) (fixed : Set Node) (h : Holding) : Prop where
  le_root : ∀ x ∈ h.taken fixed, x ≤ root
  held_apart : h.held.Pairwise Node.Apart
  fixed_apart : ∀ x ∈ fixed, ∀ y ∈ h.held, Node.Apart x y
  settled : Settled h.mask root (h.taken fixed)

section

variable {root : Node} {fixed : Set Node} {h h' : Holding}

theorem Node.Apart.ne {x y : Node} (hxy : Node.Apart x y) : x ≠ y := by
  rintro rfl
  exact hxy.1 le_rfl

instance : Std.Symm Node.Apart := ⟨fun _ _ h => h.symm⟩

theorem Sound.nodup (hs : Sound root fixed h) : h.held.Nodup :=
  hs.held_apart.imp Node.Apart.ne

theorem Sound.apart_of_ne (hs : Sound root fixed h) {x y : Node} (hx : x ∈ h.held)
    (hy : y ∈ h.held) (hne : x ≠ y) : Node.Apart x y :=
  hs.held_apart.forall hx hy hne

theorem Sound.antichain (hs : Sound root fixed h) (hfixed : Antichain fixed) :
    Antichain (h.taken fixed) := by
  rintro x (hx | hx) y (hy | hy) hne
  · exact hfixed x hx y hy hne
  · exact hs.fixed_apart x hx y hy
  · exact (hs.fixed_apart y hy x hx).symm
  · exact hs.apart_of_ne hx hy hne

theorem taken_cons (t t' : Node → ℕ) (held : List Node) (y : Node) :
    Holding.taken ⟨t', y :: held⟩ fixed = insert y (Holding.taken ⟨t, held⟩ fixed) := by
  ext x
  simp only [Holding.taken, Set.mem_union, Set.mem_ofPred_eq, List.mem_cons, Set.mem_insert_iff]
  tauto

/-- What is left after a node is given back is apart from the node. -/
theorem Sound.apart_of_erase (hs : Sound root fixed h) {x : Node} (hx : x ∈ h.held)
    {y : Node} (hy : y ∈ Holding.taken ⟨h.mask, h.held.erase x⟩ fixed) : Node.Apart y x := by
  rcases hy with hy | hy
  · exact hs.fixed_apart y hy x hx
  · have hmem := (hs.nodup.mem_erase_iff).mp hy
    exact hs.apart_of_ne hmem.2 hx hmem.1

theorem taken_erase (t t' : Node → ℕ) {held : List Node} {x : Node}
    (hs : Sound root fixed ⟨t, held⟩) (hx : x ∈ held) :
    Holding.taken ⟨t', held.erase x⟩ fixed = Holding.taken ⟨t, held⟩ fixed \ {x} := by
  ext y
  simp only [Holding.taken, Set.mem_union, Set.mem_ofPred_eq, Set.mem_sdiff,
    Set.mem_singleton_iff, hs.nodup.mem_erase_iff]
  constructor
  · rintro (hy | ⟨hne, hy⟩)
    · exact ⟨Or.inl hy, (hs.fixed_apart y hy x hx).ne⟩
    · exact ⟨Or.inr hy, hne⟩
  · rintro ⟨hy | hy, hne⟩
    · exact Or.inl hy
    · exact Or.inr ⟨hne, hy⟩

/-- A step keeps the taken nodes apart and settled. -/
theorem Sound.move (hs : Sound root fixed h) (hm : Move root fixed h h') :
    Sound root fixed h' := by
  cases hm with
  | @idle t t' held hsame =>
      exact ⟨hs.le_root, hs.held_apart, hs.fixed_apart, hs.settled.congr hs.le_root hsame⟩
  | @take t t' held y hroot hapart hupdate =>
      refine ⟨?_, ?_, ?_, ?_⟩
      · rw [taken_cons t]
        rintro x (rfl | hx)
        · exact hroot
        · exact hs.le_root x hx
      · exact List.pairwise_cons.mpr
          ⟨fun x hx => (hapart x (Or.inr hx)).symm, hs.held_apart⟩
      · intro x hx z hz
        rcases List.mem_cons.mp hz with rfl | hz
        · exact hapart x (Or.inl hx)
        · exact hs.fixed_apart x hx z hz
      · rw [taken_cons t]
        exact hs.settled.take hs.le_root hupdate hapart
  | @release t t' held x q hx hq hupdate =>
      have hsub : Holding.taken ⟨t', held.erase x⟩ fixed ⊆ Holding.taken ⟨t, held⟩ fixed := by
        rw [taken_erase t t' hs hx]
        exact Set.sdiff_subset
      refine ⟨fun z hz => hs.le_root z (hsub hz), ?_, ?_, ?_⟩
      · exact hs.held_apart.sublist List.erase_sublist
      · intro z hz y hy
        exact hs.fixed_apart z hz y (List.mem_of_mem_erase hy)
      · refine (hs.settled.mono hsub).update (fun z hz => hs.le_root z (hsub hz)) hupdate ?_
        intro z hz
        exact (hs.apart_of_erase hx hz).mono hq

/-- A step keeps the masks exact. -/
theorem Sound.exact_move (hs : Sound root fixed h) (hfixed : Antichain fixed)
    (he : Exact h.mask root (h.taken fixed)) (hm : Move root fixed h h') :
    Exact h'.mask root (h'.taken fixed) := by
  cases hm with
  | @idle t t' held hsame =>
      exact he.congr hs.le_root hsame
  | @take t t' held y hroot hapart hupdate =>
      rw [taken_cons t]
      exact he.take hs.le_root hroot hupdate hapart
  | @release t t' held x q hx hq hupdate =>
      rw [taken_erase t t' hs hx]
      exact he.release (hs.antichain hfixed) hs.le_root (Or.inr hx) hq hupdate

/-- Whole runs keep the taken nodes apart and settled. -/
theorem Sound.run (hs : Sound root fixed h)
    (hm : Relation.ReflTransGen (Move root fixed) h h') : Sound root fixed h' := by
  induction hm with
  | refl => exact hs
  | tail _ hstep ih => exact ih.move hstep

/-- Whole runs keep the masks exact. -/
theorem Sound.exact_run (hs : Sound root fixed h) (hfixed : Antichain fixed)
    (he : Exact h.mask root (h.taken fixed))
    (hm : Relation.ReflTransGen (Move root fixed) h h') :
    Exact h'.mask root (h'.taken fixed) := by
  induction hm with
  | refl => exact he
  | tail hrun hstep ih => exact (hs.run hrun).exact_move hfixed ih hstep

end

end Neos.BuddyTree
