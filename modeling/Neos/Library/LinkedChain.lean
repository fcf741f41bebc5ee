import Mathlib.Data.Finset.Card
import Mathlib.Order.Interval.Finset.Nat
import Mathlib.Data.List.Nodup

/-!
# Chains in a table of links

A table sends every entry to the next one; a chain starts at an entry and
follows the table until it meets a mark that ends it.  Following a table is
deterministic, so a chain is determined by its first entry and repeats none.
-/

namespace Neos

variable {α : Type*} {next next' : α → α} {stop stop' : α → Prop} {a b : α} {l l' : List α}

/-- The entries met from `a` on, `a` included. -/
inductive LinkedChain (next : α → α) (stop : α → Prop) : α → List α → Prop
  | last {a : α} (h : stop (next a)) : LinkedChain next stop a [a]
  | link {a : α} {l : List α} (hgo : ¬ stop (next a)) (h : LinkedChain next stop (next a) l) :
      LinkedChain next stop a (a :: l)

namespace LinkedChain

theorem ne_nil (h : LinkedChain next stop a l) : l ≠ [] := by
  cases h <;> exact List.cons_ne_nil _ _

theorem length_pos (h : LinkedChain next stop a l) : 0 < l.length :=
  List.length_pos_iff.mpr h.ne_nil

theorem head_mem (h : LinkedChain next stop a l) : a ∈ l := by
  cases h <;> exact List.mem_cons_self

/-- A chain begins with its first entry. -/
theorem eq_of_same {next' : α → α} {stop' : α → Prop} (h : LinkedChain next stop a l)
    (h' : LinkedChain next' stop' b l) : a = b := by
  cases h <;> cases h' <;> rfl

/-- The last entry of a chain is followed by a mark. -/
theorem last_stop (h : LinkedChain next stop a (l ++ [b])) : stop (next b) := by
  induction l generalizing a with
  | nil =>
      cases h with
      | last hstop => exact hstop
      | link _ hrest => exact absurd rfl hrest.ne_nil
  | cons c l ih =>
      generalize hl : c :: l ++ [b] = l' at h
      cases h with
      | last _ => simp at hl
      | link _ hrest =>
          obtain ⟨-, rfl⟩ := List.cons.inj hl
          exact ih hrest

/-- A chain is determined by its first entry. -/
theorem unique (h : LinkedChain next stop a l) (h' : LinkedChain next stop a l') : l = l' := by
  induction h generalizing l' with
  | last hstop =>
      cases h' with
      | last _ => rfl
      | link hgo _ => exact absurd hstop hgo
  | link hgo _ ih =>
      cases h' with
      | last hstop => exact absurd hstop hgo
      | link _ hrest => rw [ih hrest]

/-- Every entry of a chain starts a chain no longer than the whole. -/
theorem of_mem (h : LinkedChain next stop a l) (hb : b ∈ l) :
    ∃ l', LinkedChain next stop b l' ∧ l'.length ≤ l.length := by
  induction h with
  | last hstop =>
      rw [List.mem_singleton.mp hb]
      exact ⟨_, .last hstop, le_refl _⟩
  | link hgo hrest ih =>
      rcases List.mem_cons.mp hb with rfl | hb
      · exact ⟨_, .link hgo hrest, le_refl _⟩
      · obtain ⟨l', hl', hle⟩ := ih hb
        exact ⟨l', hl', hle.trans (Nat.le_succ _)⟩

/-- A chain repeats no entry. -/
theorem nodup (h : LinkedChain next stop a l) : l.Nodup := by
  induction h with
  | last _ => exact List.nodup_singleton _
  | link hgo hrest ih =>
      refine List.nodup_cons.mpr ⟨?_, ih⟩
      intro hmem
      obtain ⟨l', hl', hle⟩ := hrest.of_mem hmem
      have heq := (link hgo hrest).unique hl'
      rw [← heq, List.length_cons] at hle
      exact absurd hle (Nat.not_succ_le_self _)

/-- A chain is the same in every table that agrees on its entries. -/
theorem congr (h : LinkedChain next stop a l) (hnext : ∀ b ∈ l, next' b = next b) :
    LinkedChain next' stop a l := by
  induction h with
  | last hstop =>
      apply last
      rwa [hnext _ List.mem_cons_self]
  | link hgo _ ih =>
      have hfirst := hnext _ List.mem_cons_self
      apply link
      · rwa [hfirst]
      · rw [hfirst]
        exact ih fun b hb => hnext b (List.mem_cons_of_mem _ hb)

/-- Marks that end the chain anyway may be counted as marks. -/
theorem weaken (h : LinkedChain next stop a l) (hstop : ∀ b, stop b → stop' b)
    (hgo : ∀ b ∈ l, ¬ stop' b) : LinkedChain next stop' a l := by
  induction h with
  | last h => exact last (hstop _ h)
  | link _ hrest ih =>
      apply link
      · exact hgo _ (List.mem_cons_of_mem _ hrest.head_mem)
      · exact ih fun b hb => hgo b (List.mem_cons_of_mem _ hb)

/-- A chain of numbers below a bound is no longer than the bound. -/
theorem length_le {next : ℕ → ℕ} {stop : ℕ → Prop} {a : ℕ} {l : List ℕ}
    (h : LinkedChain next stop a l) {lo hi : ℕ} (hl : ∀ b ∈ l, lo ≤ b ∧ b < hi) :
    l.length ≤ hi - lo := by
  have hsubset : l.toFinset ⊆ Finset.Ico lo hi := by
    intro b hb
    exact Finset.mem_Ico.mpr (hl b (List.mem_toFinset.mp hb))
  have hcard := Finset.card_le_card hsubset
  rwa [List.toFinset_card_of_nodup h.nodup, Nat.card_Ico] at hcard

/-- A chain of entries below a bound that the table does not leave. -/
theorem mem_lt {next : ℕ → ℕ} {stop : ℕ → Prop} {a : ℕ} {l : List ℕ}
    (h : LinkedChain next stop a l) {hi : ℕ} (hnext : ∀ b, next b < hi) (ha : a < hi) :
    ∀ b ∈ l, b < hi := by
  induction h with
  | last _ =>
      intro b hb
      rw [List.mem_singleton.mp hb]
      exact ha
  | link _ _ ih =>
      intro b hb
      rcases List.mem_cons.mp hb with rfl | hb
      · exact ha
      · exact ih (hnext _) b hb

end LinkedChain

/-! ## Walks that come to an end -/

/-- The walk along the table from an entry comes to a mark. -/
def Ends (next : α → α) (stop : α → Prop) (a : α) : Prop :=
  stop a ∨ ∃ l, LinkedChain next stop a l

/-- The walk along the table from an entry comes to a mark within a number of
rounds. -/
def StopsWithin (next : α → α) (stop : α → Prop) : ℕ → α → Prop
  | 0, _ => False
  | n + 1, a => stop a ∨ StopsWithin next stop n (next a)

theorem Ends.of_next (h : Ends next stop (next a)) : Ends next stop a := by
  by_cases hgo : stop (next a)
  · exact .inr ⟨[a], .last hgo⟩
  · obtain hstop | ⟨l, hl⟩ := h
    · exact absurd hstop hgo
    · exact .inr ⟨a :: l, .link hgo hl⟩

theorem StopsWithin.ends : ∀ {n : ℕ} {a : α}, StopsWithin next stop n a → Ends next stop a
  | _ + 1, _, .inl hstop => .inl hstop
  | _ + 1, _, .inr hrest => hrest.ends.of_next

theorem LinkedChain.stopsWithin (h : LinkedChain next stop a l) :
    ∀ {n : ℕ}, l.length < n → StopsWithin next stop n a := by
  induction h with
  | last hstop =>
      rintro (_ | _ | n) hn
      · exact absurd hn (Nat.not_lt_zero _)
      · exact absurd hn (Nat.lt_irrefl _)
      · exact .inr (.inl hstop)
  | link _ _ ih =>
      rintro (_ | n) hn
      · exact absurd hn (Nat.not_lt_zero _)
      · exact .inr (ih (Nat.lt_of_succ_lt_succ hn))

/-- A walk that stands still comes to no end. -/
theorem not_ends_of_fixed (hfixed : next a = a) (hgo : ¬ stop a) : ¬ Ends next stop a := by
  rintro (hstop | ⟨l, hl⟩)
  · exact hgo hstop
  · obtain hstop | ⟨-, hrest⟩ := id hl
    · exact hgo (hfixed ▸ hstop)
    · rw [hfixed] at hrest
      exact absurd (hl.unique hrest) (List.cons_ne_self _ _)

/-- In a table of finitely many entries a walk that comes to an end does so within
as many rounds. -/
theorem ends_iff_stopsWithin {next : ℕ → ℕ} {stop : ℕ → Prop} {a n hi : ℕ}
    (hnext : ∀ b, next b < hi) (ha : a < hi) (hn : hi < n) :
    Ends next stop a ↔ StopsWithin next stop n a := by
  constructor
  · rintro (hstop | ⟨l, hl⟩)
    · obtain ⟨m, rfl⟩ := Nat.exists_eq_add_one_of_ne_zero (show n ≠ 0 by omega)
      exact .inl hstop
    · have hlength : l.length ≤ hi - 0 := hl.length_le fun b hb =>
        ⟨Nat.zero_le b, hl.mem_lt hnext ha b hb⟩
      exact hl.stopsWithin (by omega)
  · exact StopsWithin.ends

end Neos
