import Mathlib.Data.List.Nodup

/-!
# Null-terminated lists

Cells that hold an optional pointer to the next one.  A list of cells is read
off a pointer by following the cells until a null pointer is met.
-/

namespace Neos

variable {α : Type*} {next next' : α → Option α} {start : Option α} {l l' : List α} {a b : α}

/-- The cells met from a pointer on. -/
inductive PointerList (next : α → Option α) : Option α → List α → Prop
  | nil : PointerList next none []
  | cons {a : α} {l : List α} (h : PointerList next (next a) l) :
      PointerList next (some a) (a :: l)

namespace PointerList

theorem eq_nil (h : PointerList next none l) : l = [] := by
  cases h
  rfl

/-- The cells are determined by the pointer. -/
theorem unique (h : PointerList next start l) (h' : PointerList next start l') : l = l' := by
  induction h generalizing l' with
  | nil => exact h'.eq_nil.symm
  | cons _ ih =>
      cases h' with
      | cons h' => rw [ih h']

/-- A list is the same in every memory that agrees on its cells. -/
theorem congr (h : PointerList next start l) (hnext : ∀ c ∈ l, next' c = next c) :
    PointerList next' start l := by
  induction h with
  | nil => exact .nil
  | cons _ ih =>
      apply cons
      rw [hnext _ List.mem_cons_self]
      exact ih fun c hc => hnext c (List.mem_cons_of_mem _ hc)

/-- Linking a cell behind the last one appends it. -/
theorem append_last (h : PointerList next start (l ++ [a])) (hkeep : ∀ c ∈ l, next' c = next c)
    (hlast : next' a = some b) (hend : next' b = none) :
    PointerList next' start (l ++ [a] ++ [b]) := by
  induction l generalizing start with
  | nil =>
      cases h with
      | cons _ =>
          apply cons
          rw [hlast]
          apply cons
          rw [hend]
          exact .nil
  | cons c l ih =>
      cases h with
      | cons h =>
          apply cons
          rw [hkeep c List.mem_cons_self]
          exact ih h fun d hd => hkeep d (List.mem_cons_of_mem _ hd)

end PointerList

end Neos
