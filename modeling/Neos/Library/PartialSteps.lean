import Mathlib.Data.List.Infix

/-!
# Runs of partial steps

An action takes a state to the next one, unless it fails.  A run is a list of
actions; what holds in every state that it passes is decided action by action when
an invariant says what each action does to it.
-/

namespace Neos.PartialSteps

variable {σ α : Type*} {step : σ → α → Option σ} {s s₁ : σ} {a : α} {as : List α}
  {Good : σ → Prop}

/-- The state after some actions. -/
def run (step : σ → α → Option σ) (s : σ) (as : List α) : Option σ := as.foldlM step s

/-- Every action meets a condition in the state that it is taken in. -/
def Along (step : σ → α → Option σ) (P : σ → α → Prop) : σ → List α → Prop
  | _, [] => True
  | s, a :: as => P s a ∧ ∀ s', step s a = some s' → Along step P s' as

/-- Every state that a run passes, the first and the last one included, meets a
condition. -/
def Throughout (step : σ → α → Option σ) (Good : σ → Prop) (s : σ) (as : List α) : Prop :=
  ∀ pre s', pre <+: as → run step s pre = some s' → Good s'

theorem run_cons (h : step s a = some s₁) (as : List α) : run step s (a :: as) = run step s₁ as :=
  congrArg (fun r => Option.bind r fun s => run step s as) h

theorem throughout_nil : Throughout step Good s [] ↔ Good s := by
  constructor
  · intro h
    exact h [] s List.prefix_rfl rfl
  · intro h pre s' hpre hrun
    rw [List.prefix_nil.mp hpre] at hrun
    cases hrun
    exact h

theorem throughout_cons (h : step s a = some s₁) :
    Throughout step Good s (a :: as) ↔ Good s ∧ Throughout step Good s₁ as := by
  constructor
  · intro hall
    refine ⟨hall [] s List.nil_prefix rfl, ?_⟩
    intro pre s' hpre hrun
    exact hall (a :: pre) s' ((List.prefix_cons_inj a).mpr hpre) ((run_cons h pre).trans hrun)
  · rintro ⟨hfirst, hrest⟩ pre s' hpre hrun
    rcases List.prefix_cons_iff.mp hpre with rfl | ⟨pre', rfl, hpre'⟩
    · cases hrun
      exact hfirst
    · rw [run_cons h] at hrun
      exact hrest pre' s' hpre' hrun

theorem Throughout.last (h : Throughout step Good s as) (hrun : run step s as = some s₁) : Good s₁ :=
  h as s₁ List.prefix_rfl hrun

/-- When every action keeps the invariant, and from a good state leads to a good one
exactly under a condition, then all states of a run are good exactly when all actions
meet the condition. -/
theorem throughout_iff {Inv : σ → Prop} {Served Cond : σ → α → Prop}
    (hstep : ∀ s a s', Inv s → Good s → Served s a → step s a = some s' →
      Inv s' ∧ (Good s' ↔ Cond s a)) :
    ∀ {as : List α} {s : σ}, Inv s → Good s → Along step Served s as → (run step s as).isSome →
      (Throughout step Good s as ↔ Along step Cond s as)
  | [], s, _, hgood, _, _ => iff_of_true (throughout_nil.mpr hgood) trivial
  | a :: as, s, hinv, hgood, hserved, hrun => by
      obtain ⟨s', hend⟩ := Option.isSome_iff_exists.mp hrun
      obtain ⟨s₁, hfirst, hrest⟩ := Option.bind_eq_some_iff.mp hend
      obtain ⟨hinv₁, hgood₁⟩ := hstep s a s₁ hinv hgood hserved.1 hfirst
      have hserved₁ := hserved.2 s₁ hfirst
      have hrun₁ : (run step s₁ as).isSome := Option.isSome_iff_exists.mpr ⟨s', hrest⟩
      rw [throughout_cons hfirst, and_iff_right hgood]
      constructor
      · intro hall
        have hnext := hall [] s₁ List.nil_prefix rfl
        refine ⟨hgood₁.mp hnext, ?_⟩
        intro s₂ hsame
        obtain rfl : s₁ = s₂ := Option.some_inj.mp (hfirst.symm.trans hsame)
        exact (throughout_iff hstep hinv₁ hnext hserved₁ hrun₁).mp hall
      · rintro ⟨hcond, hconds⟩
        exact (throughout_iff hstep hinv₁ (hgood₁.mpr hcond) hserved₁ hrun₁).mpr
          (hconds s₁ hfirst)

end Neos.PartialSteps
