import Mathlib.Logic.Function.Basic
import Mathlib.Logic.Relation

/-!
# Time sharing

Processes with a state each and one processor.  Only the process on the processor moves,
by a step of its program; the processor may pass to another process at any time, and
processes may be started.  However the steps are interleaved, each process gets to its
state by its own steps alone.
-/

namespace Neos.TimeSharing

open Relation

variable {ι V : Type*}

/-- The process on the processor, and the states of all of them. -/
structure Processes (ι V : Type*) where
  running : ι
  state : ι → V

/-- A process gets from one state to another by its own steps, or has been started since. -/
def ReachesAlone (program : ι → V → V → Prop) (Fresh : V → Prop) (i : ι) (v v' : V) : Prop :=
  ReflTransGen (program i) v v' ∨ ∃ u, Fresh u ∧ ReflTransGen (program i) u v'

theorem ReachesAlone.tail {program : ι → V → V → Prop} {Fresh : V → Prop} {i : ι} {u v v' : V}
    (h : ReachesAlone program Fresh i u v) (hstep : program i v v') :
    ReachesAlone program Fresh i u v' := by
  rcases h with h | ⟨u', hu', h⟩
  · exact Or.inl (h.tail hstep)
  · exact Or.inr ⟨u', hu', h.tail hstep⟩

variable [DecidableEq ι]

/-- Another state of one process. -/
def Processes.set (p : Processes ι V) (i : ι) (v : V) : Processes ι V :=
  { p with state := Function.update p.state i v }

theorem Processes.set_state (p : Processes ι V) (i j : ι) (v : V) :
    (p.set i v).state j = if j = i then v else p.state j := Function.update_apply _ _ _ _

/-- One step, with the programs of the processes and the states a process may be started
in. -/
inductive Step (program : ι → V → V → Prop) (Fresh : V → Prop) :
    Processes ι V → Processes ι V → Prop
  | run {p : Processes ι V} {v : V} (h : program p.running (p.state p.running) v) :
      Step program Fresh p (p.set p.running v)
  | pass {p : Processes ι V} (i : ι) : Step program Fresh p { p with running := i }
  | start {p : Processes ι V} {i : ι} (hi : i ≠ p.running) {v : V} (hv : Fresh v) :
      Step program Fresh p (p.set i v)

section

variable {program : ι → V → V → Prop} {Fresh : V → Prop} {p p' : Processes ι V} {i : ι} {u : V}

/-- A step moves a process by its own program, or starts it, or leaves it alone. -/
theorem Step.alone (hstep : Step program Fresh p p') (h : ReachesAlone program Fresh i u (p.state i)) :
    ReachesAlone program Fresh i u (p'.state i) := by
  cases hstep with
  | run hrun =>
      rw [Processes.set_state]
      split
      · next hi =>
          rw [hi] at h ⊢
          exact h.tail hrun
      · exact h
  | pass j => exact h
  | start _ hv =>
      rw [Processes.set_state]
      split
      · exact Or.inr ⟨_, hv, .refl⟩
      · exact h

/-- Every process gets to its state alone. -/
theorem alone_of_run (hrun : ReflTransGen (Step program Fresh) p p') (i : ι) :
    ReachesAlone program Fresh i (p.state i) (p'.state i) := by
  induction hrun with
  | refl => exact Or.inl .refl
  | tail _ hstep ih => exact hstep.alone ih

end

end Neos.TimeSharing
