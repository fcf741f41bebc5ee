import Neos.Scheduler.Counts
import Neos.Scheduler.Switching

/-!
# Saved stack pointers

A process should be resumed with the stack pointer that was saved when it last
left the processor.  `scheduler_context_switch` saves the pointer in the slot
`process_running`, which is `-1` before the first switch, and which a new
process may have taken over since the running one was killed.
-/

namespace Neos.Scheduler

open Vfs

/-! ## Runs -/

/-- What can happen to the table. -/
inductive Event
  | create (entry : NewEntry) (heap : HeapAnswer)
  | kill (pid : ℤ)
  | tick (oldStack : ℕ)

/-- The machine and the world of the drivers; for each slot with a live process,
the stack pointer the process should be resumed with; and the slot of the
process on the processor, as long as no other process has taken the slot. -/
structure Timeline (W : Type) where
  machine : Machine
  world : W
  expected : ℕ → Option ℕ
  current : Option ℕ

variable {W : Type}

/-- Whether a live process has the slot. -/
def Timeline.Occupied (h : Timeline W) (i : ℤ) : Prop := 0 ≤ i ∧ h.expected i.toNat ≠ none

instance (h : Timeline W) (i : ℤ) : Decidable (h.Occupied i) :=
  inferInstanceAs (Decidable (_ ∧ _))

/-- What is expected of the processes when the one on the processor is taken off
it. -/
def Timeline.save (h : Timeline W) (oldStack : ℕ) : ℕ → Option ℕ :=
  match h.current with
  | none => h.expected
  | some c => if h.expected c = none then h.expected
              else Function.update h.expected c (some oldStack)

/-- One event. -/
inductive Happens (m : Mounts W) (h : Timeline W) : Event → Timeline W → Prop
  | create (entry : NewEntry) (heap : HeapAnswer) :
      Happens m h (.create entry heap)
        { machine := { h.machine with table := schedulerNewEntry h.machine.table entry heap }
          world := h.world
          expected := Function.update h.expected h.machine.table.nextSlot (some entry.stack)
          current := if h.current = some h.machine.table.nextSlot then none else h.current }
  | kill (pid : ℤ) :
      Happens m h (.kill pid)
        { machine :=
            { h.machine with table := (schedulerKillProcess m h.machine.table pid h.world).2.1 }
          world := (schedulerKillProcess m h.machine.table pid h.world).2.2
          expected :=
            if schedulerPidInvalid h.machine.table pid then h.expected
            else Function.update h.expected (pid - 1).toNat none
          current := h.current }
  | idle {oldStack : ℕ} (hcount : h.machine.table.processCount = 0) :
      Happens m h (.tick oldStack) h
  | tick {oldStack : ℕ} {b : Switched} (hcount : h.machine.table.processCount ≠ 0)
      (hswitch : Switches h.machine oldStack b) :
      Happens m h (.tick oldStack)
        { machine := b.machine
          world := h.world
          expected := h.save oldStack
          current :=
            if 0 ≤ b.machine.running ∧ h.save oldStack b.machine.running.toNat ≠ none then
              some b.machine.running.toNat
            else none }

/-- The slot a switch stores the old stack pointer in. -/
def Machine.storedSlot (a : Machine) : Option ℤ :=
  if a.table.processCount = 0 then none else some a.running

/-- A switch stores the old stack pointer only in the slot of the process that
was running. -/
def Timeline.StoresOwn (h : Timeline W) : Event → Prop
  | .create _ _ => True
  | .kill _ => True
  | .tick _ =>
      ∀ i, h.machine.storedSlot = some i → ∃ c, h.current = some c ∧ i = c

/-- A switch that selects a live process returns the stack pointer expected of
it. -/
def Timeline.Resumes (h : Timeline W) : Event → Prop
  | .create _ _ => True
  | .kill _ => True
  | .tick oldStack =>
      ∀ b, h.machine.table.processCount ≠ 0 → Switches h.machine oldStack b →
        0 ≤ b.machine.running → ∀ stack,
          h.save oldStack b.machine.running.toNat = some stack → b.stack = stack

/-- All switches of a run save and restore as they should. -/
def Timeline.Sound (m : Mounts W) : Timeline W → List Event → Prop
  | _, [] => True
  | h, e :: es => h.StoresOwn e ∧ h.Resumes e ∧ ∀ h', Happens m h e h' → h'.Sound m es

/-- All switches of a run restore as they should. -/
def Timeline.Restores (m : Mounts W) : Timeline W → List Event → Prop
  | _, [] => True
  | h, e :: es => h.Resumes e ∧ ∀ h', Happens m h e h' → h'.Restores m es

/-- The switches of a run all come before the first creation. -/
def TicksFirst : List Event → Prop
  | [] => True
  | .create _ _ :: es => ∀ oldStack, Event.tick oldStack ∉ es
  | .kill _ :: es => TicksFirst es
  | .tick _ :: es => TicksFirst es

/-- A switch finds in the running slot the process it takes off the processor, or
no live process. -/
def Timeline.Undisturbed (h : Timeline W) : Event → Prop
  | .create _ _ => True
  | .kill _ => True
  | .tick _ =>
      (∃ c : ℕ, h.current = some c ∧ h.machine.running = c) ∨
        ¬ h.Occupied h.machine.running

/-- Every switch of a run is undisturbed. -/
def Timeline.UndisturbedRun (m : Mounts W) : Timeline W → List Event → Prop
  | _, [] => True
  | h, e :: es => h.Undisturbed e ∧ ∀ h', Happens m h e h' → h'.UndisturbedRun m es

/-- The state after `scheduler_init`. -/
def booted (table : ℕ → ProcessDescriptor) (filesAt : ℕ → ℕ → VRef)
    (fileExistsAt : ℕ → ℕ → Bool) (below : ℕ → ProcessDescriptor) (w : W) : Timeline W where
  machine := ⟨schedulerInit table filesAt fileExistsAt, below⟩
  world := w
  expected := fun _ => none
  current := none

/-! ## Single calls -/

section

variable {m : Mounts W} {h h' : Timeline W} {e : Event}

/-- A creation takes a slot behind the entries or one that is not live. -/
theorem deadSlot_spec (s : ProcessTable) :
    ∀ {fuel i : ℕ}, i + fuel = s.processCount →
      deadSlot s fuel i = s.processCount ∨
        deadSlot s fuel i < s.processCount ∧
          (s.generalProcessTable (deadSlot s fuel i)).live = false
  | 0, i, h => by
      rw [deadSlot]
      exact Or.inl (by omega)
  | fuel + 1, i, h => by
      rw [deadSlot]
      split
      · exact deadSlot_spec s (by omega)
      · next hstop =>
          have hne : i ≠ s.processCount := by omega
          refine Or.inr ⟨by omega, ?_⟩
          by_contra hlive
          exact hstop ⟨hne, by simpa using hlive⟩

theorem nextSlot_spec (s : ProcessTable) :
    s.nextSlot = s.processCount ∨
      s.nextSlot < s.processCount ∧ (s.generalProcessTable s.nextSlot).live = false :=
  deadSlot_spec s (Nat.zero_add _)

/-- The slots after a creation. -/
theorem schedulerNewEntry_slot (s : ProcessTable) (entry : NewEntry) (heap : HeapAnswer)
    {i : ℕ} (hi : i < s.processCount ∨ i = s.nextSlot) :
    (schedulerNewEntry s entry heap).generalProcessTable i =
      if i = s.nextSlot then entry.descriptor heap else s.generalProcessTable i := by
  have hgrow : ∀ j < s.processCount, (grow s heap).generalProcessTable j =
      s.generalProcessTable j := by
    intro j hj
    unfold grow
    split
    · next hfull => exact if_pos (by omega)
    · rfl
  unfold schedulerNewEntry
  change (if i = s.nextSlot then entry.descriptor heap
    else (if s.nextSlot = s.processCount then
      { grow s heap with processCount := (grow s heap).processCount + 1 }
      else s).generalProcessTable i) = _
  split
  · rfl
  · next hne =>
      have hlt : i < s.processCount := by
        rcases hi with hlt | heq
        · exact hlt
        · exact absurd heq hne
      split
      · exact hgrow i hlt
      · rfl

theorem schedulerNewEntry_running (s : ProcessTable) (entry : NewEntry) (heap : HeapAnswer) :
    (schedulerNewEntry s entry heap).processRunning = s.processRunning := by
  unfold schedulerNewEntry grow
  dsimp only [ProcessTable.setSlot]
  split
  · split <;> rfl
  · rfl

/-- A kill changes only the slot of the process. -/
theorem schedulerKillProcess_slot (m : Mounts W) (s : ProcessTable) (pid : ℤ) (w : W) {i : ℕ}
    (hi : schedulerPidInvalid s pid = true ∨ i ≠ (pid - 1).toNat) :
    (schedulerKillProcess m s pid w).2.1.generalProcessTable i = s.generalProcessTable i := by
  unfold schedulerKillProcess
  split
  · rfl
  · next hvalid =>
      have hne : i ≠ (pid - 1).toNat := by
        rcases hi with hinvalid | hne
        · exact absurd hinvalid hvalid
        · exact hne
      simp only [schedulerRemoveEntry, ProcessTable.setSlot, hne, if_false]

theorem schedulerKillProcess_running (m : Mounts W) (s : ProcessTable) (pid : ℤ) (w : W) :
    (schedulerKillProcess m s pid w).2.1.processRunning = s.processRunning := by
  unfold schedulerKillProcess
  split <;> rfl

/-- What a switch stores, and where. -/
theorem Switches.slot {a : Machine} {b : Switched} {oldStack : ℕ}
    (hcount : a.table.processCount ≠ 0) (hs : Switches a oldStack b) (i : ℤ) :
    b.machine.slot i =
        (if i = a.running then { a.slot i with stack := oldStack } else a.slot i) ∧
      b.stack = (b.machine.slot b.machine.running).stack := by
  obtain ⟨fuel, found, -, rfl⟩ := (switches_iff hcount).mp hs
  refine ⟨?_, rfl⟩
  change (a.setStack a.running oldStack).slot i = _
  rw [slot_setStack]
  split
  · next heq => rw [heq]
  · rfl

/-! ## Saved pointers -/

/-- The slot of every live process contains the pointer expected of it, and the
process on the processor is in the running slot. -/
structure Saved (h : Timeline W) : Prop where
  slot : ∀ i stack, h.expected i = some stack → i < h.machine.table.processCount ∧
    (h.machine.table.generalProcessTable i).live = true ∧
      (h.machine.table.generalProcessTable i).stack = stack
  running : ∀ c : ℕ, h.current = some c → h.machine.running = c

/-- No live process has the slot a creation takes. -/
theorem Saved.nextSlot (hs : Saved h) : h.expected h.machine.table.nextSlot = none := by
  rw [Option.eq_none_iff_forall_ne_some]
  intro stack hexpected
  obtain ⟨hlt, hlive, -⟩ := hs.slot _ _ hexpected
  rcases nextSlot_spec h.machine.table with heq | ⟨-, hdead⟩
  · omega
  · rw [hlive] at hdead
    cases hdead

theorem Saved.create (hs : Saved h) (entry : NewEntry) (heap : HeapAnswer)
    (hh : Happens m h (.create entry heap) h') : Saved h' := by
  cases hh
  have hcount := schedulerNewEntry_processCount h.machine.table entry heap
  constructor
  · intro i stack hexpected
    dsimp only at hexpected ⊢
    by_cases hi : i = h.machine.table.nextSlot
    · rw [hi, Function.update_self, Option.some_inj] at hexpected
      rw [schedulerNewEntry_slot _ _ _ (Or.inr hi), if_pos hi, hcount]
      refine ⟨?_, rfl, hexpected⟩
      rcases nextSlot_spec h.machine.table with heq | ⟨hlt, -⟩
      · rw [if_pos heq]
        omega
      · rw [if_neg (by omega)]
        omega
    · rw [Function.update_of_ne hi] at hexpected
      obtain ⟨hlt, hlive, hstack⟩ := hs.slot i stack hexpected
      rw [schedulerNewEntry_slot _ _ _ (Or.inl hlt), if_neg hi]
      refine ⟨?_, hlive, hstack⟩
      rw [hcount]
      split <;> omega
  · intro c hc
    dsimp only at hc
    split at hc
    · cases hc
    · exact (schedulerNewEntry_running _ _ _).trans (hs.running c hc)

theorem Saved.kill (hs : Saved h) (pid : ℤ) (hh : Happens m h (.kill pid) h') : Saved h' := by
  cases hh
  constructor
  · intro i stack hexpected
    dsimp only at hexpected ⊢
    have hkeep : h.expected i = some stack ∧
        (schedulerPidInvalid h.machine.table pid = true ∨ i ≠ (pid - 1).toNat) := by
      split at hexpected
      · next hinvalid => exact ⟨hexpected, Or.inl hinvalid⟩
      · by_cases hi : i = (pid - 1).toNat
        · rw [hi, Function.update_self] at hexpected
          cases hexpected
        · rw [Function.update_of_ne hi] at hexpected
          exact ⟨hexpected, Or.inr hi⟩
    obtain ⟨hlt, hlive, hstack⟩ := hs.slot i stack hkeep.1
    rw [schedulerKillProcess_slot m _ pid _ hkeep.2,
      (schedulerKillProcess_sizes m h.machine.table pid h.world).1]
    exact ⟨hlt, hlive, hstack⟩
  · intro c hc
    exact (schedulerKillProcess_running m _ pid _).trans (hs.running c hc)

/-- After an undisturbed switch every live process is still in its slot, with
the pointer expected of it. -/
theorem Saved.slot_after (hs : Saved h) {oldStack : ℕ} {b : Switched}
    (hcount : h.machine.table.processCount ≠ 0) (hswitch : Switches h.machine oldStack b)
    (hundisturbed : h.Undisturbed (.tick oldStack)) {i stack : ℕ}
    (hexpected : h.save oldStack i = some stack) :
    i < b.machine.table.processCount ∧ (b.machine.slot i).live = true ∧
      (b.machine.slot i).stack = stack := by
  have hold : ∃ old, h.expected i = some old ∧
      (stack = if (i : ℤ) = h.machine.running then oldStack else old) := by
    cases hcurrent : h.current with
    | none =>
        simp only [Timeline.save, hcurrent] at hexpected
        refine ⟨stack, hexpected, (if_neg ?_).symm⟩
        intro hi
        rcases hundisturbed with ⟨c, hc, -⟩ | hfree
        · rw [hcurrent] at hc
          cases hc
        · exact hfree ⟨by omega, by rw [← hi, Int.toNat_natCast, hexpected]; simp⟩
    | some c =>
        have hrunning := hs.running c hcurrent
        simp only [Timeline.save, hcurrent] at hexpected
        split at hexpected
        · next hgone =>
            refine ⟨stack, hexpected, (if_neg ?_).symm⟩
            intro hi
            have : i = c := by omega
            rw [this, hgone] at hexpected
            cases hexpected
        · next halive =>
            by_cases hi : i = c
            · subst hi
              rw [Function.update_self, Option.some_inj] at hexpected
              obtain ⟨old, hold⟩ := Option.ne_none_iff_exists'.mp halive
              exact ⟨old, hold, by rw [if_pos hrunning.symm, hexpected]⟩
            · rw [Function.update_of_ne hi] at hexpected
              refine ⟨stack, hexpected, (if_neg ?_).symm⟩
              omega
  obtain ⟨old, hold, hstack⟩ := hold
  obtain ⟨hlt, hlive, heq⟩ := hs.slot i old hold
  have hslot : h.machine.slot i = h.machine.table.generalProcessTable i := by
    unfold Machine.slot
    rw [if_pos (by omega), Int.toNat_natCast]
  refine ⟨by rwa [hswitch.processCount hcount], ?_, ?_⟩
  · rw [hswitch.slot_live hcount, hslot]
    exact hlive
  · rw [(hswitch.slot hcount i).1, hstack]
    split
    · rfl
    · rw [hslot, heq]

theorem Saved.resumes (hs : Saved h) (hundisturbed : h.Undisturbed e) : h.Resumes e := by
  cases e with
  | create entry heap => trivial
  | kill pid => trivial
  | tick oldStack =>
      intro b hcount hswitch hnonneg stack hexpected
      obtain ⟨-, -, hstack⟩ := hs.slot_after hcount hswitch hundisturbed hexpected
      rw [Int.toNat_of_nonneg hnonneg] at hstack
      rw [(hswitch.slot hcount 0).2, hstack]

theorem Saved.tick (hs : Saved h) {oldStack : ℕ}
    (hundisturbed : h.Undisturbed (.tick oldStack)) (hh : Happens m h (.tick oldStack) h') :
    Saved h' := by
  cases hh with
  | idle hcount => exact hs
  | tick hcount hswitch =>
      constructor
      · intro i stack hexpected
        obtain ⟨hlt, hlive, hstack⟩ := hs.slot_after hcount hswitch hundisturbed hexpected
        unfold Machine.slot at hlive hstack
        rw [if_pos (by omega), Int.toNat_natCast] at hlive hstack
        exact ⟨hlt, hlive, hstack⟩
      · intro c hc
        dsimp only at hc ⊢
        split at hc
        · rw [Option.some_inj] at hc
          omega
        · cases hc

/-- What one event preserves. -/
theorem Saved.happens (hs : Saved h) (hundisturbed : h.Undisturbed e)
    (hh : Happens m h e h') : Saved h' := by
  cases e with
  | create entry heap => exact hs.create entry heap hh
  | kill pid => exact hs.kill pid hh
  | tick oldStack => exact hs.tick hundisturbed hh

/-- In an undisturbed run every process is resumed with the stack pointer it was
created with or was last taken off the processor with. -/
theorem Saved.restores {events : List Event} (hs : Saved h)
    (hrun : h.UndisturbedRun m events) : h.Restores m events := by
  induction events generalizing h with
  | nil => trivial
  | cons e events ih =>
      obtain ⟨hundisturbed, hrest⟩ := hrun
      refine ⟨hs.resumes hundisturbed, ?_⟩
      intro h' hh
      exact ih (hs.happens hundisturbed hh) (hrest h' hh)

theorem booted_saved (table : ℕ → ProcessDescriptor) (filesAt : ℕ → ℕ → VRef)
    (fileExistsAt : ℕ → ℕ → Bool) (below : ℕ → ProcessDescriptor) (w : W) :
    Saved (booted table filesAt fileExistsAt below w) := by
  constructor
  · intro i stack hexpected
    cases hexpected
  · intro c hc
    cases hc

/-! ## Where pointers are stored -/

theorem sound_of_no_ticks {events : List Event} (hno : ∀ oldStack, Event.tick oldStack ∉ events) :
    h.Sound m events := by
  induction events generalizing h with
  | nil => trivial
  | cons e events ih =>
      have hrest : ∀ oldStack, Event.tick oldStack ∉ events :=
        fun oldStack hmem => hno oldStack (List.mem_cons_of_mem _ hmem)
      cases e with
      | create entry heap => exact ⟨trivial, trivial, fun _ _ => ih hrest⟩
      | kill pid => exact ⟨trivial, trivial, fun _ _ => ih hrest⟩
      | tick oldStack => exact absurd List.mem_cons_self (hno oldStack)

/-- Without entries a switch does nothing. -/
theorem sound_of_ticksFirst {events : List Event} (hcount : h.machine.table.processCount = 0)
    (hfirst : TicksFirst events) : h.Sound m events := by
  induction events generalizing h with
  | nil => trivial
  | cons e events ih =>
      cases e with
      | create entry heap => exact ⟨trivial, trivial, fun _ _ => sound_of_no_ticks hfirst⟩
      | kill pid =>
          refine ⟨trivial, trivial, ?_⟩
          intro h' hh
          cases hh with
          | kill _ =>
              refine ih ?_ hfirst
              exact (schedulerKillProcess_sizes m h.machine.table pid h.world).1.trans hcount
      | tick oldStack =>
          refine ⟨?_, fun _ hne => absurd hcount hne, ?_⟩
          · intro i hi
            rw [Machine.storedSlot, if_pos hcount] at hi
            cases hi
          · intro h' hh
            cases hh with
            | idle _ => exact ih hcount hfirst
            | tick hne _ => exact absurd hcount hne

/-- The first switch after a creation stores the old stack pointer in a slot of
no process. -/
theorem no_ticks_of_sound {events : List Event} (hcount : h.machine.table.processCount ≠ 0)
    (hcurrent : h.current = none) (hs : h.Sound m events) :
    ∀ oldStack, Event.tick oldStack ∉ events := by
  induction events generalizing h with
  | nil => simp
  | cons e events ih =>
      obtain ⟨hstores, -, hrest⟩ := hs
      intro oldStack hmem
      cases e with
      | create entry heap =>
          refine ih ?_ ?_ (hrest _ (.create entry heap)) oldStack (by simpa using hmem)
          · dsimp only
            rw [schedulerNewEntry_processCount]
            split <;> omega
          · dsimp only
            rw [hcurrent]
            rfl
      | kill pid =>
          have hkilled := hrest _ (.kill pid)
          refine ih ?_ (by exact hcurrent) hkilled oldStack (by simpa using hmem)
          dsimp only
          rwa [(schedulerKillProcess_sizes m h.machine.table pid h.world).1]
      | tick oldStack' =>
          obtain ⟨c, hc, -⟩ := hstores h.machine.running (if_neg hcount)
          rw [hcurrent] at hc
          cases hc

theorem ticksFirst_of_sound {events : List Event} (hcount : h.machine.table.processCount = 0)
    (hcurrent : h.current = none) (hs : h.Sound m events) : TicksFirst events := by
  induction events generalizing h with
  | nil => trivial
  | cons e events ih =>
      obtain ⟨-, -, hrest⟩ := hs
      cases e with
      | create entry heap =>
          refine no_ticks_of_sound ?_ ?_ (hrest _ (.create entry heap))
          · dsimp only
            rw [schedulerNewEntry_processCount]
            split <;> omega
          · dsimp only
            rw [hcurrent]
            rfl
      | kill pid =>
          have hkilled := hrest _ (.kill pid)
          refine ih ?_ (by exact hcurrent) hkilled
          exact (schedulerKillProcess_sizes m h.machine.table pid h.world).1.trans hcount
      | tick oldStack => exact ih hcount hcurrent (hrest _ (.idle hcount))

end

/-- A run after `scheduler_init` saves and restores as it should exactly when all
its switches come before the first creation.  It restores as it should when every
switch finds in the running slot the process it takes off the processor, or no
live process. -/
theorem sound_iff_ticksFirst (m : Mounts W) (table : ℕ → ProcessDescriptor)
    (filesAt : ℕ → ℕ → VRef) (fileExistsAt : ℕ → ℕ → Bool) (below : ℕ → ProcessDescriptor)
    (w : W) (events : List Event) :
    ((booted table filesAt fileExistsAt below w).Sound m events ↔ TicksFirst events) ∧
      ((booted table filesAt fileExistsAt below w).UndisturbedRun m events →
        (booted table filesAt fileExistsAt below w).Restores m events) := by
  refine ⟨⟨ticksFirst_of_sound rfl rfl, sound_of_ticksFirst rfl⟩, ?_⟩
  exact (booted_saved table filesAt fileExistsAt below w).restores

/-! ## A process on the stack of another one -/

/-- The state after `scheduler_init` on memory that looks live. -/
def bootedOnGarbage : Timeline Unit :=
  booted (fun _ => leftover true) (fun _ _ => vfsRoot) (fun _ _ => false)
    (fun _ => leftover false) ()

/-- The creation of a process with a given stack. -/
def creationAt (stack : ℕ) : Event :=
  .create ⟨-1, stack, 0, vfsRoot, 0, 1⟩ ⟨0, 0, fun _ => leftover true⟩

/-- A process is created, run and killed, a second one takes over its slot, and
the next switch stores a stack pointer there: the second process is resumed with
it instead of its own. -/
theorem resumed_on_foreign_stack :
    ¬ bootedOnGarbage.Sound noMounts [creationAt 100, .tick 1] ∧
      ¬ bootedOnGarbage.Restores noMounts
        [creationAt 100, .tick 1, .kill 1, creationAt 200, .tick 55, .tick 66, .tick 77] := by
  constructor
  · intro hs
    exact absurd (ticksFirst_of_sound rfl rfl hs 1) (by simp)
  · rintro ⟨-, h₁⟩
    obtain ⟨-, h₂⟩ := h₁ _ (.create _ _)
    obtain ⟨-, h₃⟩ := h₂ _ (.tick (by decide) ⟨1, rfl⟩)
    obtain ⟨-, h₄⟩ := h₃ _ (.kill _)
    obtain ⟨-, h₅⟩ := h₄ _ (.create _ _)
    obtain ⟨-, h₆⟩ := h₅ _ (.tick (by decide) ⟨1, rfl⟩)
    obtain ⟨h₇, -⟩ := h₆ _ (.tick (by decide) ⟨1, rfl⟩)
    have hwrong := h₇ _ (by decide) ⟨1, rfl⟩ (by decide) 200 (by decide)
    revert hwrong
    decide

end Neos.Scheduler
