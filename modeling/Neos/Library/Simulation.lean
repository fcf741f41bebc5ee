import Mathlib.Data.List.Basic
import Mathlib.Logic.Relation

/-!
# Simulation of systems that answer

A system takes a call to an answer and a new state, unless the call has no defined
effect.  One system simulates another when the calls it may be given are answered
alike by both.  This carries over to whole runs, to systems one above the other, and
to clients that make several calls of a system to answer one of their own.
-/

namespace Neos.Simulation

variable {σ τ υ α β γ δ κ : Type*}

/-- The answers of a run, and the state after it. -/
def serve (step : σ → α → Option (β × σ)) : σ → List α → Option (List β × σ)
  | s, [] => some ([], s)
  | s, a :: as => do
      let (b, s) ← step s a
      let (bs, s) ← serve step s as
      return (b :: bs, s)

/-- Every call of a run meets a condition in the state that it is made in. -/
def Admitted (step : σ → α → Option (β × σ)) (Served : σ → α → Prop) : σ → List α → Prop
  | _, [] => True
  | s, a :: as => Served s a ∧ ∀ b s', step s a = some (b, s') → Admitted step Served s' as

theorem serve_cons {step : σ → α → Option (β × σ)} {s s' : σ} {a : α} {b : β}
    (h : step s a = some (b, s')) (as : List α) :
    serve step s (a :: as) = (serve step s' as).map fun r => (b :: r.1, r.2) := by
  rw [serve, h, Option.bind_eq_bind, Option.bind_some]
  dsimp only
  cases serve step s' as <;> rfl

/-- The calls that may be made have a defined effect, and both systems give the same
answer and end in related states. -/
def Simulates (step : σ → α → Option (β × σ)) (spec : τ → α → Option (β × τ))
    (Served : σ → α → Prop) (R : σ → τ → Prop) : Prop :=
  ∀ s t a, R s t → Served s a →
    ∃ b s' t', step s a = some (b, s') ∧ spec t a = some (b, t') ∧ R s' t'

section

variable {step : σ → α → Option (β × σ)} {spec : τ → α → Option (β × τ)}
  {Served : σ → α → Prop} {R : σ → τ → Prop}

/-- Whole runs are answered alike. -/
theorem Simulates.run (h : Simulates step spec Served R) :
    ∀ {as : List α} {s : σ} {t : τ}, R s t → Admitted step Served s as →
      ∃ bs s' t', serve step s as = some (bs, s') ∧ serve spec t as = some (bs, t') ∧ R s' t'
  | [], s, t, hrel, _ => ⟨[], s, t, rfl, rfl, hrel⟩
  | a :: as, s, t, hrel, hadmitted => by
      obtain ⟨b, s₁, t₁, hstep, hspec, hrel₁⟩ := h s t a hrel hadmitted.1
      obtain ⟨bs, s', t', hrun, hrun', hrel'⟩ := h.run hrel₁ (hadmitted.2 b s₁ hstep)
      refine ⟨b :: bs, s', t', ?_, ?_, hrel'⟩
      · rw [serve_cons hstep, hrun, Option.map_some]
      · rw [serve_cons hspec, hrun', Option.map_some]

/-- Fewer calls may be made. -/
theorem Simulates.weaken {Served' : σ → α → Prop} (h : Simulates step spec Served R)
    (hserved : ∀ s t a, R s t → Served' s a → Served s a) : Simulates step spec Served' R :=
  fun s t a hrel hcall => h s t a hrel (hserved s t a hrel hcall)

/-- One simulation above another. -/
theorem Simulates.comp {spec' : υ → α → Option (β × υ)} {Served' : τ → α → Prop}
    {R' : τ → υ → Prop} (h : Simulates step spec Served R) (h' : Simulates spec spec' Served' R')
    (hserved : ∀ s t u a, R s t → R' t u → Served s a → Served' t a) :
    Simulates step spec' Served fun s u => ∃ t, R s t ∧ R' t u := by
  rintro s u a ⟨t, hst, htu⟩ hcall
  obtain ⟨b, s', t', hstep, hmid, hst'⟩ := h s t a hst hcall
  obtain ⟨b', t'', u', hmid', hspec, htu'⟩ := h' t u a htu (hserved s t u a hst htu hcall)
  obtain ⟨rfl, rfl⟩ := Prod.mk.inj (Option.some_inj.mp (hmid'.symm.trans hmid))
  exact ⟨b', s', u', hstep, hspec, t'', hst', htu'⟩

end

/-! ## Clients -/

/-- What a client does to answer: it calls the system and goes on with the answer it
gets, until it gives an answer of its own or has no defined effect. -/
inductive Plan (α β δ : Type*)
  | answer (d : δ)
  | stuck
  | call (a : α) (next : β → Plan α β δ)

namespace Plan

/-- A plan carried out on a system. -/
def perform (step : σ → α → Option (β × σ)) : Plan α β δ → σ → Option (δ × σ)
  | answer d, s => some (d, s)
  | stuck, _ => none
  | call a next, s => (step s a).bind fun r => (next r.1).perform step r.2

/-- All calls of a plan meet a condition in the states that they are made in. -/
def Admits (step : σ → α → Option (β × σ)) (Served : σ → α → Prop) : Plan α β δ → σ → Prop
  | answer _, _ => True
  | stuck, _ => False
  | call a next, s => Served s a ∧ ∀ b s', step s a = some (b, s') → (next b).Admits step Served s'

/-- A plan with another answer. -/
def map {ε : Type*} (f : δ → ε) : Plan α β δ → Plan α β ε
  | answer d => answer (f d)
  | stuck => stuck
  | call a next => call a fun b => (next b).map f

theorem perform_map {ε : Type*} (f : δ → ε) {step : σ → α → Option (β × σ)} (plan : Plan α β δ) :
    ∀ s, (plan.map f).perform step s = (plan.perform step s).map fun r => (f r.1, r.2) := by
  induction plan with
  | answer d => exact fun s => rfl
  | stuck => exact fun s => rfl
  | call a next ih =>
      intro s
      rw [map, perform, perform, Option.map_bind]
      congr 1
      funext r
      exact ih r.1 r.2

theorem admits_map {ε : Type*} {f : δ → ε} {step : σ → α → Option (β × σ)}
    {Served : σ → α → Prop} {plan : Plan α β δ} :
    ∀ {s}, (plan.map f).Admits step Served s ↔ plan.Admits step Served s := by
  induction plan with
  | answer d => exact Iff.rfl
  | stuck => exact Iff.rfl
  | call a next ih => exact and_congr_right fun _ => forall₃_congr fun b s' _ => ih b

theorem perform_call {step : σ → α → Option (β × σ)} {s s' : σ} {a : α} {b : β}
    (h : step s a = some (b, s')) (next : β → Plan α β δ) :
    (call a next).perform step s = (next b).perform step s' := by
  rw [perform, h, Option.bind_some]

end Plan

/-- A plan is carried out alike on both systems. -/
theorem Simulates.perform {step : σ → α → Option (β × σ)} {spec : τ → α → Option (β × τ)}
    {Served : σ → α → Prop} {R : σ → τ → Prop} (h : Simulates step spec Served R)
    (plan : Plan α β δ) :
    ∀ {s : σ} {t : τ}, R s t → plan.Admits step Served s →
      ∃ d s' t', plan.perform step s = some (d, s') ∧ plan.perform spec t = some (d, t') ∧
        R s' t' := by
  induction plan with
  | answer d => exact fun hrel _ => ⟨d, _, _, rfl, rfl, hrel⟩
  | stuck => exact fun _ hstuck => hstuck.elim
  | call a next ih =>
      rintro s t hrel ⟨hcall, hnext⟩
      obtain ⟨b, s₁, t₁, hstep, hspec, hrel₁⟩ := h s t a hrel hcall
      rw [Plan.perform_call hstep, Plan.perform_call hspec]
      exact ih b hrel₁ (hnext b s₁ hstep)

/-- A client with a state of its own, on top of a system. -/
def above (client : κ → γ → Plan α β (δ × κ)) (step : σ → α → Option (β × σ)) (s : κ × σ) (c : γ) :
    Option (δ × κ × σ) :=
  ((client s.1 c).perform step s.2).map fun r => (r.1.1, r.1.2, r.2)

/-- The client cannot tell the systems below it apart. -/
theorem Simulates.above {step : σ → α → Option (β × σ)} {spec : τ → α → Option (β × τ)}
    {Served : σ → α → Prop} {R : σ → τ → Prop} (h : Simulates step spec Served R)
    (client : κ → γ → Plan α β (δ × κ)) :
    Simulates (above client step) (above client spec)
      (fun s c => (client s.1 c).Admits step Served s.2) fun s t => s.1 = t.1 ∧ R s.2 t.2 := by
  rintro ⟨k, s⟩ ⟨k', t⟩ c ⟨hk, hrel⟩ hcall
  dsimp only at hk hrel hcall
  subst hk
  obtain ⟨⟨d, k'⟩, s', t', hperform, hperform', hrel'⟩ := h.perform (client k c) hrel hcall
  refine ⟨d, (k', s'), (k', t'), ?_, ?_, rfl, hrel'⟩
  · rw [Simulation.above, hperform, Option.map_some]
  · rw [Simulation.above, hperform', Option.map_some]

/-! ## Specifications with a choice -/

/-- The calls that may be made have a defined effect, with an answer that the
specification allows. -/
def Conforms (step : σ → α → Option (β × σ)) (spec : τ → α → β → τ → Prop) (Needs : τ → α → Prop)
    (R : σ → τ → Prop) : Prop :=
  ∀ s t a, R s t → Needs t a → ∃ b s' t', step s a = some (b, s') ∧ spec t a b t' ∧ R s' t'

/-- Whatever the specification allows, the plan makes only calls that may be made, and
its answer meets a condition. -/
def Plan.Ensures (spec : τ → α → β → τ → Prop) (Needs : τ → α → Prop) (Post : δ → τ → Prop) :
    Plan α β δ → τ → Prop
  | answer d, t => Post d t
  | stuck, _ => False
  | call a next, t => Needs t a ∧ ∀ b t', spec t a b t' → (next b).Ensures spec Needs Post t'

/-- What a plan ensures by the specification it ensures on the system. -/
theorem Conforms.perform {step : σ → α → Option (β × σ)} {spec : τ → α → β → τ → Prop}
    {Needs : τ → α → Prop} {R : σ → τ → Prop} (h : Conforms step spec Needs R)
    {Post : δ → τ → Prop} (plan : Plan α β δ) :
    ∀ {s : σ} {t : τ}, R s t → plan.Ensures spec Needs Post t →
      ∃ d s' t', plan.perform step s = some (d, s') ∧ Post d t' ∧ R s' t' := by
  induction plan with
  | answer d => exact fun hrel hpost => ⟨d, _, _, rfl, hpost, hrel⟩
  | stuck => exact fun _ hstuck => hstuck.elim
  | call a next ih =>
      rintro s t hrel ⟨hneeds, hnext⟩
      obtain ⟨b, s₁, t₁, hstep, hspec, hrel₁⟩ := h s t a hrel hneeds
      rw [Plan.perform_call hstep]
      exact ih b hrel₁ (hnext b t₁ hspec)

/-! ## Systems that take steps -/

/-- Every step of the system is a run of the specification. -/
def Refines (step : σ → σ → Prop) (spec : τ → τ → Prop) (R : σ → τ → Prop) : Prop :=
  ∀ s t s', R s t → step s s' → ∃ t', Relation.ReflTransGen spec t t' ∧ R s' t'

/-- Whole runs are runs of the specification. -/
theorem Refines.run {step : σ → σ → Prop} {spec : τ → τ → Prop} {R : σ → τ → Prop}
    (h : Refines step spec R) {s s' : σ} {t : τ} (hrel : R s t)
    (hrun : Relation.ReflTransGen step s s') :
    ∃ t', Relation.ReflTransGen spec t t' ∧ R s' t' := by
  induction hrun with
  | refl => exact ⟨t, .refl, hrel⟩
  | tail _ hstep ih =>
      obtain ⟨t₁, hrun₁, hrel₁⟩ := ih
      obtain ⟨t₂, hrun₂, hrel₂⟩ := h _ _ _ hrel₁ hstep
      exact ⟨t₂, hrun₁.trans hrun₂, hrel₂⟩

end Neos.Simulation
