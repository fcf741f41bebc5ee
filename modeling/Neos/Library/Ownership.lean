import Mathlib.Data.Finset.Option
import Mathlib.Logic.Function.Basic

/-!
# Owners of resources

A store of resources that are acquired and released, and owners that hold at
most one resource each.  Ownership is exclusive and complete when every owner's
resource is live, no two owners share one, and every live resource has an
owner.  Resources are named by their acquisition, so a name is never used twice.
-/

namespace Neos.Ownership

variable {ι α : Type} [DecidableEq ι] [DecidableEq α]

/-! ## The store -/

/-- The resources that are live, all that were ever acquired, and the number of
releases of something that was not live. -/
structure Store (α : Type) where
  live : Finset α
  used : Finset α
  badReleases : ℕ

namespace Store

/-- Acquire a resource. -/
def acquire (x : α) (s : Store α) : Store α where
  live := insert x s.live
  used := insert x s.used
  badReleases := s.badReleases

/-- Release a resource. -/
def release (x : α) (s : Store α) : Store α where
  live := s.live.erase x
  used := s.used
  badReleases := if x ∈ s.live then s.badReleases else s.badReleases + 1

/-- Release resources one after the other. -/
def releaseAll : List α → Store α → Store α
  | [], s => s
  | x :: xs, s => releaseAll xs (s.release x)

/-- What one holder of at most one resource does to a store: the others'
resources stay live, and nothing is released twice. -/
structure Holds (s : Store α) (x : Option α) (s' : Store α) : Prop where
  live : s'.live = x.toFinset ∪ s.live
  fresh : ∀ y ∈ x, y ∉ s.used
  used : s.used ⊆ s'.used
  mem_used : ∀ y ∈ x, y ∈ s'.used
  badReleases : s'.badReleases = s.badReleases

variable {s s' : Store α} {x y : α}

@[simp] theorem releaseAll_nil (s : Store α) : s.releaseAll [] = s := rfl

@[simp] theorem releaseAll_cons (x : α) (xs : List α) (s : Store α) :
    s.releaseAll (x :: xs) = (s.release x).releaseAll xs := rfl

theorem releaseAll_append (xs ys : List α) (s : Store α) :
    s.releaseAll (xs ++ ys) = (s.releaseAll xs).releaseAll ys := by
  induction xs generalizing s with
  | nil => rfl
  | cons x xs ih => exact ih (s.release x)

theorem release_balance (x : α) (s : Store α) :
    (s.release x).badReleases + s.live.card =
      s.badReleases + (s.release x).live.card + 1 := by
  by_cases hx : x ∈ s.live
  · have hcard := Finset.card_erase_add_one hx
    simp only [release, if_pos hx]
    omega
  · simp only [release, if_neg hx, Finset.erase_eq_of_notMem hx]
    omega

/-- A release takes a resource from the live ones or counts as a bad one. -/
theorem releaseAll_balance (xs : List α) (s : Store α) :
    (s.releaseAll xs).badReleases + s.live.card =
      s.badReleases + (s.releaseAll xs).live.card + xs.length := by
  induction xs generalizing s with
  | nil => rfl
  | cons x xs ih =>
      have hhead := release_balance x s
      have htail := ih (s.release x)
      rw [releaseAll_cons, List.length_cons]
      omega

/-- Only the release of nothing leaves a store as it was. -/
theorem releaseAll_eq_self_iff {xs : List α} {s : Store α} :
    s.releaseAll xs = s ↔ xs = [] := by
  constructor
  · intro h
    have hbalance := releaseAll_balance xs s
    rw [h] at hbalance
    exact List.length_eq_zero_iff.mp (by omega)
  · rintro rfl
    rfl

theorem holds_refl (s : Store α) : s.Holds none s where
  live := by simp
  fresh := by simp
  used := subset_rfl
  mem_used := by simp
  badReleases := rfl

/-- A holder with empty hands acquires a resource. -/
theorem Holds.acquire (h : s.Holds none s') (hx : x ∉ s'.used) :
    s.Holds (some x) (s'.acquire x) where
  live := by
    rw [Store.acquire, h.live]
    ext y
    simp
  fresh y hy := by
    rw [Option.mem_some] at hy
    subst hy
    exact fun hmem => hx (h.used hmem)
  used := h.used.trans (Finset.subset_insert _ _)
  mem_used y hy := by
    rw [Option.mem_some] at hy
    subst hy
    exact Finset.mem_insert_self _ _
  badReleases := h.badReleases

/-- The holder releases its resource. -/
theorem Holds.release (h : s.Holds (some x) s') (hs : s.live ⊆ s.used) :
    s.Holds none (s'.release x) where
  live := by
    have hx : x ∉ s.live := fun hmem => h.fresh x rfl (hs hmem)
    rw [Store.release, h.live]
    ext y
    by_cases hy : y = x
    · simp [hy, hx]
    · simp [hy]
  fresh := by simp
  used := h.used
  mem_used := by simp
  badReleases := by
    have hx : x ∈ s'.live := by simp [h.live]
    rw [Store.release, if_pos hx, h.badReleases]

/-- Somebody else's release does not concern the holder. -/
theorem Holds.release_other (h : s.Holds (some x) s') (hs : s.live ⊆ s.used)
    (hy : y ∈ s.live) : (s.release y).Holds (some x) (s'.release y) where
  live := by
    have hne : x ≠ y := by
      rintro rfl
      exact h.fresh x rfl (hs hy)
    simp only [Store.release, h.live]
    ext z
    by_cases hz : z = x
    · simp [hz, hne]
    · simp [hz]
  fresh := h.fresh
  used := h.used
  mem_used := h.mem_used
  badReleases := by
    have hy' : y ∈ s'.live := by simp [h.live, hy]
    simp only [Store.release, if_pos hy, if_pos hy', h.badReleases]

theorem Holds.live_subset (h : s.Holds (some x) s') (hs : s.live ⊆ s.used) :
    s'.live ⊆ s'.used := by
  intro y hy
  rw [h.live, Option.toFinset_some, Finset.mem_union, Finset.mem_singleton] at hy
  rcases hy with rfl | hy
  · exact h.mem_used y rfl
  · exact h.used (hs hy)

end Store

/-! ## Owners -/

/-- Owners and live resources correspond one to one. -/
structure Owned (holds : ι → Option α) (s : Store α) : Prop where
  live : ∀ i x, holds i = some x → x ∈ s.live
  unique : ∀ i j x, holds i = some x → holds j = some x → i = j
  owner : ∀ x ∈ s.live, ∃ i, holds i = some x
  used : s.live ⊆ s.used
  badReleases : s.badReleases = 0

section Owned

variable {holds holds' : ι → Option α} {s s' : Store α} {i : ι} {x y : α}

omit [DecidableEq ι] in
/-- A holder that ends with empty hands leaves ownership as it was. -/
theorem Owned.idle (h : Owned holds s) (hs : s.Holds none s') : Owned holds s' where
  live j x hx := by simpa [hs.live] using h.live j x hx
  unique := h.unique
  owner x hx := h.owner x (by simpa [hs.live] using hx)
  used := by
    intro x hx
    exact hs.used (h.used (by simpa [hs.live] using hx))
  badReleases := hs.badReleases.trans h.badReleases

/-- An owner without a resource takes over the one a holder ends with. -/
theorem Owned.take (h : Owned holds s) (hs : s.Holds (some x) s') (hi : holds i = none) :
    Owned (Function.update holds i (some x)) s' where
  live j y hy := by
    rw [hs.live]
    by_cases hj : j = i
    · subst hj
      rw [Function.update_self] at hy
      simp [hy]
    · rw [Function.update_of_ne hj] at hy
      simp [h.live j y hy]
  unique j k y hj hk := by
    have hfresh : ∀ l, holds l ≠ some x := by
      intro l hl
      exact hs.fresh x rfl (h.used (h.live l x hl))
    by_cases hji : j = i <;> by_cases hki : k = i
    · rw [hji, hki]
    · rw [hji, Function.update_self] at hj
      rw [Function.update_of_ne hki] at hk
      exact absurd (hk.trans hj.symm) (hfresh k)
    · rw [hki, Function.update_self] at hk
      rw [Function.update_of_ne hji] at hj
      exact absurd (hj.trans hk.symm) (hfresh j)
    · rw [Function.update_of_ne hji] at hj
      rw [Function.update_of_ne hki] at hk
      exact h.unique j k y hj hk
  owner y hy := by
    rw [hs.live, Option.toFinset_some, Finset.mem_union, Finset.mem_singleton] at hy
    rcases hy with rfl | hy
    · exact ⟨i, Function.update_self ..⟩
    · obtain ⟨j, hj⟩ := h.owner y hy
      have hne : j ≠ i := by
        rintro rfl
        rw [hi] at hj
        cases hj
      exact ⟨j, by rw [Function.update_of_ne hne, hj]⟩
  used := hs.live_subset h.used
  badReleases := hs.badReleases.trans h.badReleases

/-- An owner releases its resource. -/
theorem Owned.drop (h : Owned holds s) (hi : holds i = some x) :
    Owned (Function.update holds i none) (s.release x) where
  live j y hy := by
    by_cases hj : j = i
    · subst hj
      rw [Function.update_self] at hy
      cases hy
    · rw [Function.update_of_ne hj] at hy
      refine Finset.mem_erase.mpr ⟨?_, h.live j y hy⟩
      rintro rfl
      exact hj (h.unique j i y hy hi)
  unique j k y hj hk := by
    by_cases hji : j = i
    · rw [hji, Function.update_self] at hj
      cases hj
    · by_cases hki : k = i
      · rw [hki, Function.update_self] at hk
        cases hk
      · rw [Function.update_of_ne hji] at hj
        rw [Function.update_of_ne hki] at hk
        exact h.unique j k y hj hk
  owner y hy := by
    obtain ⟨hne, hmem⟩ := Finset.mem_erase.mp hy
    obtain ⟨j, hj⟩ := h.owner y hmem
    have hji : j ≠ i := by
      rintro rfl
      rw [hi, Option.some_inj] at hj
      exact hne hj.symm
    exact ⟨j, by rw [Function.update_of_ne hji, hj]⟩
  used := (Finset.erase_subset _ _).trans h.used
  badReleases := by rw [Store.release, if_pos (h.live i x hi), h.badReleases]

/-- An owner exchanges its resource for the one a holder ends with. -/
theorem Owned.exchange (h : Owned holds s) (hs : s.Holds (some x) s') (hi : holds i = some y) :
    Owned (Function.update holds i (some x)) (s'.release y) := by
  have hdrop := h.drop hi
  have htake := hdrop.take (hs.release_other h.used (h.live i y hi)) (Function.update_self ..)
  rwa [Function.update_idem] at htake

omit [DecidableEq ι] [DecidableEq α] in
/-- Ownership depends only on what each owner holds. -/
theorem Owned.congr (h : Owned holds s) (heq : ∀ j, holds' j = holds j) : Owned holds' s := by
  have : holds' = holds := funext heq
  rwa [this]

end Owned

end Neos.Ownership
