import Neos.Scheduler.Model
import Mathlib.Data.List.Basic

/-!
# The process count

What creations and kills do to `process_count`.  A creation raises the count
once when it appends an entry and once more at its end, so the count runs ahead
of the entries that were written, and later creations work on slots that were
never initialised or lie behind the table.
-/

namespace Neos.Scheduler

open Vfs

/-! ## Runs -/

/-- A call that changes the table. -/
inductive Call
  | create (entry : NewEntry) (heap : HeapAnswer)
  | kill (pid : ℤ)

/-- The table, the world of the drivers, and the slots written by creations. -/
structure History (W : Type) where
  table : ProcessTable
  world : W
  written : List ℕ

variable {W : Type}

/-- The slot a creation writes. -/
def ProcessTable.nextSlot (s : ProcessTable) : ℕ := deadSlot s s.processCount 0

/-- One call. -/
def History.call (m : Mounts W) (h : History W) : Call → History W
  | .create entry heap =>
      { h with
        table := schedulerNewEntry h.table entry heap
        written := h.table.nextSlot :: h.written }
  | .kill pid =>
      let killed := schedulerKillProcess m h.table pid h.world
      { h with table := killed.2.1, world := killed.2.2 }

/-- What should hold at every point: the count stays within the table, and all
slots below it were written. -/
def History.Consistent (h : History W) : Prop :=
  h.table.processCount ≤ h.table.processTableSize ∧
    ∀ i < h.table.processCount, i ∈ h.written

/-- What should hold of a creation: it takes a slot inside the table that is not
live, and raises the count by one exactly when it appends. -/
def History.Orderly (m : Mounts W) (h : History W) (c : Call) : Prop :=
  match c with
  | .create _ _ =>
      let slot := h.table.nextSlot
      let after := (h.call m c).table
      schedulerPidInvalid h.table (slot + 1) = true ∧ slot < after.processTableSize ∧
        after.processCount =
          if slot = h.table.processCount then h.table.processCount + 1
          else h.table.processCount
  | .kill _ => True

/-- All points and all calls of a run are in order. -/
def History.Sound (m : Mounts W) : History W → List Call → Prop
  | h, [] => h.Consistent
  | h, c :: calls => h.Consistent ∧ h.Orderly m c ∧ (h.call m c).Sound m calls

/-- The calls of a run that create nothing. -/
def Call.IsKill : Call → Prop
  | .create _ _ => False
  | .kill _ => True

/-! ## Single calls -/

@[simp] theorem setSlot_processCount (s : ProcessTable) (i : ℕ) (p : ProcessDescriptor) :
    (s.setSlot i p).processCount = s.processCount := rfl

@[simp] theorem setSlot_processTableSize (s : ProcessTable) (i : ℕ) (p : ProcessDescriptor) :
    (s.setSlot i p).processTableSize = s.processTableSize := rfl

@[simp] theorem grow_processCount (s : ProcessTable) (heap : HeapAnswer) :
    (grow s heap).processCount = s.processCount := by
  unfold grow
  split <;> rfl

/-- A creation raises the count by two when it appends and by one when it reuses
a slot. -/
theorem schedulerNewEntry_processCount (s : ProcessTable) (entry : NewEntry)
    (heap : HeapAnswer) :
    (schedulerNewEntry s entry heap).processCount =
      if s.nextSlot = s.processCount then s.processCount + 2 else s.processCount + 1 := by
  unfold schedulerNewEntry
  change _ = if deadSlot s s.processCount 0 = s.processCount then _ else _
  by_cases h : deadSlot s s.processCount 0 = s.processCount
  · simp [h]
  · simp [h]

/-- A kill changes neither the count nor the size of the table. -/
theorem schedulerKillProcess_sizes (m : Mounts W) (s : ProcessTable) (pid : ℤ) (w : W) :
    (schedulerKillProcess m s pid w).2.1.processCount = s.processCount ∧
      (schedulerKillProcess m s pid w).2.1.processTableSize = s.processTableSize := by
  unfold schedulerKillProcess
  split
  · exact ⟨rfl, rfl⟩
  · exact ⟨rfl, rfl⟩

/-- No creation is in order. -/
theorem not_orderly_create (m : Mounts W) (h : History W) (entry : NewEntry)
    (heap : HeapAnswer) : ¬ h.Orderly m (.create entry heap) := by
  rintro ⟨-, -, hcount⟩
  rw [History.call, schedulerNewEntry_processCount] at hcount
  split at hcount <;> omega

/-! ## Whole runs -/

theorem sound_of_kills (m : Mounts W) {h : History W} (hcount : h.table.processCount = 0) :
    ∀ {calls : List Call}, (∀ c ∈ calls, c.IsKill) → h.Sound m calls := by
  intro calls hcalls
  have hpoint : h.Consistent := by
    refine ⟨by omega, ?_⟩
    intro i hi
    omega
  induction calls generalizing h with
  | nil => exact hpoint
  | cons c calls ih =>
      cases c with
      | create entry heap => exact absurd (hcalls _ List.mem_cons_self) id
      | kill pid =>
          obtain ⟨hcount', hsize'⟩ := schedulerKillProcess_sizes m h.table pid h.world
          have hnext : (h.call m (.kill pid)).table.processCount = 0 := hcount'.trans hcount
          refine ⟨hpoint, trivial, ih hnext ?_ ?_⟩
          · exact fun c hc => hcalls c (List.mem_cons_of_mem _ hc)
          · refine ⟨by omega, ?_⟩
            intro i hi
            omega

theorem kills_of_sound (m : Mounts W) {h : History W} {calls : List Call}
    (hs : h.Sound m calls) : ∀ c ∈ calls, c.IsKill := by
  induction calls generalizing h with
  | nil =>
      intro c hc
      cases hc
  | cons c calls ih =>
      obtain ⟨-, horderly, hrest⟩ := hs
      intro c' hc'
      rcases List.mem_cons.mp hc' with rfl | hc'
      · cases c' with
        | create entry heap => exact absurd horderly (not_orderly_create m h entry heap)
        | kill pid => trivial
      · exact ih hrest c' hc'

/-- A run after `scheduler_init` keeps its counts in order exactly when it
creates no process. -/
theorem sound_iff_kills (m : Mounts W) (table : ℕ → ProcessDescriptor)
    (filesAt : ℕ → ℕ → VRef) (fileExistsAt : ℕ → ℕ → Bool) (w : W) (calls : List Call) :
    History.Sound m ⟨schedulerInit table filesAt fileExistsAt, w, []⟩ calls ↔
      ∀ c ∈ calls, c.IsKill :=
  ⟨kills_of_sound m, sound_of_kills m rfl⟩

/-! ## Three creations -/

/-- A mount tree without drivers. -/
def noMounts : Mounts Unit where
  nodes := []
  drivers := fun _ =>
    { root := fun _ w => (0, 0, w)
      clone := fun _ _ w => (0, 0, w)
      openPart := fun _ _ _ w => (0, 0, w)
      close := fun _ w => (0, 0, w)
      remove := fun _ _ w => (0, 0, w)
      stat := fun _ w => (0, 0, w) }

/-- A descriptor as uninitialised memory may look. -/
def leftover (live : Bool) : ProcessDescriptor where
  live := live
  stack := 0
  processMemory := 0
  state := .runnable
  parentIndex := 0
  files := 0
  fileExists := 0
  cwd := vfsRoot
  exe := vfsRoot
  mount := 0
  processSegmentsIndex := 0

/-- A heap block whose first two slots look dead and all others live. -/
def freshTable : ProcessTable :=
  schedulerInit (fun i => leftover (2 ≤ i)) (fun _ _ => vfsRoot) fun _ _ => false

/-- Creations without arguments of interest. -/
def someCreation : Call :=
  .create ⟨-1, 0, 0, vfsRoot, 0, 1⟩ ⟨0, 0, fun _ => leftover true⟩

/-- Three creations: after the first one a slot below the count was never
written, after the second one the count exceeds the size of the table, and the
third one writes behind the table. -/
theorem creations_not_sound :
    let h₀ : History Unit := ⟨freshTable, (), []⟩
    let h₁ := h₀.call noMounts someCreation
    let h₂ := h₁.call noMounts someCreation
    h₁.table.processCount = 2 ∧ h₁.written = [0] ∧
      h₂.table.processCount = 3 ∧ h₂.table.processTableSize = 2 ∧
      h₂.table.nextSlot = 3 ∧ (h₂.call noMounts someCreation).table.processTableSize = 2 ∧
      ¬ h₀.Sound noMounts [someCreation, someCreation, someCreation] := by
  refine ⟨by decide, by decide, by decide, by decide, by decide, by decide, ?_⟩
  intro hs
  exact not_orderly_create _ _ _ _ hs.2.1

end Neos.Scheduler
