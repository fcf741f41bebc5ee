import Neos.Vfs.Model
import Mathlib.Data.List.TakeWhile

/-!
# Path names

The names a path consists of, and the order in which `vfs_open` looks at them:
it enters a name only after the next one was resolved, so a name that is too
long is refused before its predecessor is entered.
-/

namespace Neos.Vfs

/-! ## Sections of a path -/

/-- What is left of a string from an index on. -/
def tail (s : CString) (i : ℕ) : CString := (s.drop i).takeWhile (· ≠ 0)

/-- A path without its leading slash. -/
def stripSlash : CString → CString
  | [] => []
  | c :: rest => if c = slash then rest else c :: rest

/-- The name at the start of a path. -/
def nextName (r : CString) : CString := r.takeWhile (· ≠ slash)

/-- What follows the name at the start of a path. -/
def afterName (r : CString) : CString := r.dropWhile (· ≠ slash)

theorem afterName_length_lt (r : CString) (h : stripSlash r ≠ []) :
    (afterName (stripSlash r)).length < r.length := by
  cases r with
  | nil => exact absurd rfl h
  | cons c rest =>
      rw [stripSlash]
      split
      · have := (List.dropWhile_suffix (l := rest) (· ≠ slash)).length_le
        exact Nat.lt_succ_of_le this
      · next hc =>
          rw [afterName, List.dropWhile_cons_of_pos (by simpa using hc)]
          have := (List.dropWhile_suffix (l := rest) (· ≠ slash)).length_le
          exact Nat.lt_succ_of_le this

/-- The names of a path.  A slash ends a name, and a slash at the very end does
not start another one; two slashes in a row enclose an empty name. -/
def sections (r : CString) : List CString :=
  if _h : stripSlash r = [] then []
  else nextName (stripSlash r) :: sections (afterName (stripSlash r))
termination_by r.length
decreasing_by exact afterName_length_lt r _h

theorem sections_nil {r : CString} (h : stripSlash r = []) : sections r = [] := by
  rw [sections, dif_pos h]

theorem sections_cons {r : CString} (h : stripSlash r ≠ []) :
    sections r = nextName (stripSlash r) :: sections (afterName (stripSlash r)) := by
  rw [sections, dif_neg h]

example : sections [47, 97, 47, 98, 98, 47] = [[97], [98, 98]] := by
  rw [sections_cons (by decide), sections_cons (by decide), sections_nil (by decide)]
  rfl

/-- A name ends at the next slash. -/
theorem nextName_append {name rest : CString} (h : slash ∉ name) :
    nextName (name ++ slash :: rest) = name := by
  rw [nextName, List.takeWhile_append_of_pos]
  · simp
  · intro c hc
    simp only [decide_eq_true_eq]
    rintro rfl
    exact h hc

theorem afterName_append {name rest : CString} (h : slash ∉ name) :
    afterName (name ++ slash :: rest) = slash :: rest := by
  rw [afterName, List.dropWhile_append_of_pos]
  · simp
  · intro c hc
    simp only [decide_eq_true_eq]
    rintro rfl
    exact h hc

/-! ## Reading a string -/

theorem lt_length_of_charAt {s : CString} {i : ℕ} (h : charAt s i ≠ 0) : i < s.length := by
  apply Nat.lt_of_not_le
  intro hge
  rw [charAt, List.getD_eq_getElem?_getD, List.getElem?_eq_none hge] at h
  exact h rfl

theorem charAt_eq (s : CString) (i : ℕ) : charAt s i = (tail s i).headD 0 := by
  rw [charAt, tail, List.getD_eq_getElem?_getD, ← List.head?_drop]
  cases s.drop i with
  | nil => rfl
  | cons c rest =>
      by_cases hc : c = 0
      · simp [hc]
      · simp [hc]

theorem tail_succ {s : CString} {i : ℕ} (h : charAt s i ≠ 0) :
    tail s (i + 1) = (tail s i).tail := by
  have hdrop : s.drop (i + 1) = (s.drop i).tail := by rw [List.tail_drop]
  rw [charAt, List.getD_eq_getElem?_getD, ← List.head?_drop] at h
  rw [tail, tail, hdrop]
  cases hs : s.drop i with
  | nil => rfl
  | cons c rest =>
      have hc : c ≠ 0 := by simpa [hs] using h
      simp [hc]

theorem stripSlash_tail (s : CString) (i : ℕ) :
    stripSlash (tail s i) =
      tail s (if charAt s i = slash then i + 1 else i) := by
  split
  · next h =>
      have hne : charAt s i ≠ 0 := by
        rw [h]
        decide
      rw [tail_succ hne]
      rw [charAt_eq] at h hne
      cases ht : tail s i with
      | nil => simp [ht] at hne
      | cons c rest =>
          have hc : c = slash := by simpa [ht] using h
          rw [stripSlash, if_pos hc]
          rfl
  · next h =>
      rw [charAt_eq] at h
      cases ht : tail s i with
      | nil => rfl
      | cons c rest =>
          have hc : c ≠ slash := by simpa [ht] using h
          rw [stripSlash, if_neg hc]

theorem tail_eq_nil_iff {s : CString} {i : ℕ} : tail s i = [] ↔ charAt s i = 0 := by
  rw [charAt_eq]
  constructor
  · intro h
    rw [h]
    rfl
  · intro h
    cases ht : tail s i with
    | nil => rfl
    | cons c rest =>
        have hc : c = 0 := by simpa [ht] using h
        have hmem : c ∈ tail s i := by simp [ht]
        have hne := List.mem_takeWhile_imp hmem
        simp [hc] at hne

theorem nextName_tail_end {s : CString} {i : ℕ} (h : charAt s i = slash ∨ charAt s i = 0) :
    nextName (tail s i) = [] := by
  rcases h with h | h
  · rw [charAt_eq] at h
    cases ht : tail s i with
    | nil => rfl
    | cons c rest =>
        have hc : c = slash := by simpa [ht] using h
        simp [nextName, hc]
  · rw [tail_eq_nil_iff.mpr h]
    rfl

theorem nextName_tail_cons {s : CString} {i : ℕ} (h₁ : charAt s i ≠ slash)
    (h₂ : charAt s i ≠ 0) :
    nextName (tail s i) = charAt s i :: nextName (tail s (i + 1)) := by
  rw [tail_succ h₂]
  rw [charAt_eq] at h₁ h₂ ⊢
  cases ht : tail s i with
  | nil => simp [ht] at h₂
  | cons c rest =>
      have hc : c ≠ slash := by simpa [ht] using h₁
      simp [nextName, hc]

/-- The loop of `vfs_resolve` copies the next name, as far as there is room. -/
theorem resolveLoop_eq (s : CString) :
    ∀ (room i : ℕ) (buffer : CString), (nextName (tail s i)).length < room →
      resolveLoop s room i buffer =
        (i + (nextName (tail s i)).length, buffer ++ nextName (tail s i), false)
  | 0, _, _, h => absurd h (Nat.not_lt_zero _)
  | room + 1, i, buffer, h => by
      rw [resolveLoop]
      split
      · next hend =>
          rw [nextName_tail_end hend, List.append_nil]
          rfl
      · next hgo =>
          obtain ⟨h₁, h₂⟩ := not_or.mp hgo
          rw [nextName_tail_cons h₁ h₂] at h ⊢
          rw [resolveLoop_eq s room (i + 1) _ (Nat.lt_of_succ_lt_succ h), List.length_cons,
            List.append_assoc, Nat.add_assoc, Nat.add_comm 1]
          rfl

theorem resolveLoop_full (s : CString) :
    ∀ (room i : ℕ) (buffer : CString), room ≤ (nextName (tail s i)).length →
      (resolveLoop s room i buffer).2.2 = true
  | 0, _, _, _ => rfl
  | room + 1, i, buffer, h => by
      have hgo : ¬ (charAt s i = slash ∨ charAt s i = 0) := by
        intro hend
        rw [nextName_tail_end hend] at h
        exact absurd h (Nat.not_succ_le_zero room)
      obtain ⟨h₁, h₂⟩ := not_or.mp hgo
      rw [nextName_tail_cons h₁ h₂] at h
      rw [resolveLoop, if_neg hgo]
      exact resolveLoop_full s room (i + 1) _ (Nat.le_of_succ_le_succ h)

theorem afterName_tail (s : CString) :
    ∀ (n i : ℕ), (nextName (tail s i)).length = n → tail s (i + n) = afterName (tail s i)
  | 0, i, h => by
      have hnil := List.eq_nil_of_length_eq_zero h
      rw [Nat.add_zero, afterName]
      rw [nextName] at hnil
      have := List.takeWhile_append_dropWhile (p := (· ≠ slash)) (l := tail s i)
      rw [hnil, List.nil_append] at this
      exact this.symm
  | n + 1, i, h => by
      have hgo : ¬ (charAt s i = slash ∨ charAt s i = 0) := by
        intro hend
        rw [nextName_tail_end hend] at h
        exact absurd h (Nat.succ_ne_zero n).symm
      obtain ⟨h₁, h₂⟩ := not_or.mp hgo
      rw [nextName_tail_cons h₁ h₂] at h
      have hrec := afterName_tail s n (i + 1) (Nat.succ.inj h)
      rw [Nat.add_assoc, Nat.add_comm 1] at hrec
      rw [hrec, tail_succ h₂]
      rw [charAt_eq] at h₁ h₂
      cases ht : tail s i with
      | nil => simp [ht] at h₂
      | cons c rest =>
          have hc : c ≠ slash := by simpa [ht] using h₁
          simp [afterName, hc]

/-! ## `vfs_resolve` -/

/-- The names a path object still has to offer. -/
def VPath.rest (path : VPath) : CString := tail path.string path.offset

theorem vfsResolve_done {path : VPath} (h : stripSlash path.rest = []) :
    (vfsResolve path).more = false := by
  rw [VPath.rest, stripSlash_tail, tail_eq_nil_iff] at h
  unfold vfsResolve
  dsimp only
  rw [if_pos h]

theorem vfsResolve_more {path : VPath} (h : stripSlash path.rest ≠ []) :
    (vfsResolve path).more = true ∧ (vfsResolve path).path.resolves = path.resolves + 1 := by
  rw [VPath.rest, stripSlash_tail, ne_eq, tail_eq_nil_iff] at h
  unfold vfsResolve
  dsimp only
  rw [if_neg h]
  exact ⟨rfl, rfl⟩

/-- A name that fits is returned, and the path goes on behind it. -/
theorem vfsResolve_fits {path : VPath} (h : stripSlash path.rest ≠ [])
    (hlen : (nextName (stripSlash path.rest)).length < fileMaxName - 1) :
    (vfsResolve path).name = nextName (stripSlash path.rest) ∧
      (vfsResolve path).path.errno = path.errno ∧
      (vfsResolve path).path.rest = afterName (stripSlash path.rest) := by
  rw [VPath.rest, stripSlash_tail] at h hlen ⊢
  have hgo := h
  rw [ne_eq, tail_eq_nil_iff] at hgo
  have hloop := resolveLoop_eq path.string (fileMaxName - 1) _ [] hlen
  unfold vfsResolve
  dsimp only
  rw [if_neg hgo, hloop]
  exact ⟨rfl, rfl, afterName_tail _ _ _ rfl⟩

/-- A name that does not fit is reported. -/
theorem vfsResolve_long {path : VPath} (h : stripSlash path.rest ≠ [])
    (hlen : fileMaxName - 1 ≤ (nextName (stripSlash path.rest)).length) :
    (vfsResolve path).path.errno = linuxEnametoolong := by
  rw [VPath.rest, stripSlash_tail] at h hlen
  have hgo := h
  rw [ne_eq, tail_eq_nil_iff] at hgo
  have hloop := resolveLoop_full path.string (fileMaxName - 1) _ [] hlen
  unfold vfsResolve
  dsimp only
  rw [if_neg hgo]
  exact if_pos hloop

end Neos.Vfs
